import NetBox.Session.ParseUrl

/-! # Which stored site a URL means

A text without a protocol means a stored site when the name of the site, with or
without its folder, is the decoded text or stands in it before a slash. What
follows the name is the directory.

`ParseUrl` does not ask for the slash, so that `server` is taken for `server2`.
It knows a name with its folder only as the whole text, and then looks in the
text for the name without the folder, which may not be there. And it cuts the
name at the first slash, where elsewhere the folder ends at the last one.
-/

namespace NetBox.Session
open Base.Text List

/-- `ExtractLocalName`. -/
def extractLocalName (name : UnicodeString) : UnicodeString :=
  name.drop (lastDelimiter [slash] name)

/-- Texts of one length that are the same but for case. -/
def Alike (t : TextApi) (a b : UnicodeString) : Prop := a.length = b.length ∧ t.sameText a b = true

/-- The name stands at the beginning of the text, before a slash. -/
def BeforeSlash (t : TextApi) (text name : UnicodeString) : Prop :=
  ∃ a rest, text = a ++ slash :: rest ∧ Alike t a name

/-- The text means the name. -/
def Named (t : TextApi) (text name : UnicodeString) : Prop :=
  Alike t text name ∨ BeforeSlash t text name

/-- The parser returns, it uses a site exactly when the text means one, and then
the directory is what follows the name. -/
def LookupRight (t : TextApi) (sessions : List StoredSession) (wantsFileName : Bool)
    (url : UnicodeString) (result : Option ParseResult) : Prop :=
  ∃ r, result = some r ∧
    match r.site with
    | none => ∀ s ∈ sessions, s.isWorkspace = false →
        ¬ Named t (t.decodeUrlChars url) s.data.name ∧
        ¬ Named t (t.decodeUrlChars url) (extractLocalName s.data.name)
    | some s => s ∈ sessions ∧ s.isWorkspace = false ∧
        r.session = (setDirectory t wantsFileName r.directory s.data).1 ∧
        ∃ n, (n = s.data.name ∨ n = extractLocalName s.data.name) ∧
          Named t (t.decodeUrlChars url) n ∧
          ∃ a, url = a ++ r.directory ∧ Alike t (t.decodeUrlChars a) n

/-- The first site below `GetCount` that the parser takes has at most one folder, its name
without the folder begins the text and is not followed by anything but a slash,
and the first part of the URL that decodes to the same text as the name is of its length. When
there is no such site, then no hidden one is counted, no text before a slash is a name with a
folder, and no name in a folder of a folder is meant. -/
def LookupSafe (t : TextApi) (stored : StoredSessionList) (url : UnicodeString) : Prop :=
  match (stored.sessions.take stored.getCount).find? fun s =>
      !s.isWorkspace && matchesUrl t (t.decodeUrlChars url) s.data.name with
  | some s =>
    let name := nameWithoutFolder s.data.name
    extractLocalName s.data.name = name ∧
    Alike t ((t.decodeUrlChars url).take name.length) name ∧
    (∀ c, (t.decodeUrlChars url)[name.length]? = some c → c = slash) ∧
    ∃ p, 1 ≤ p ∧ Alike t (t.decodeUrlChars (url.take p)) name ∧
      ∀ q, 1 ≤ q → q < p → t.sameText (t.decodeUrlChars (url.take q)) name = false
  | none => stored.sessions.length ≤ stored.getCount ∧ ∀ s ∈ stored.sessions, s.isWorkspace = false →
    (slash ∈ s.data.name → ¬ BeforeSlash t (t.decodeUrlChars url) s.data.name) ∧
    (extractLocalName s.data.name ≠ nameWithoutFolder s.data.name →
      ¬ Named t (t.decodeUrlChars url) (extractLocalName s.data.name))

/-! ## Names and folders -/

variable {name : UnicodeString}

theorem nameWithoutFolder_of_not_mem (h : slash ∉ name) : nameWithoutFolder name = name := by
  rw [nameWithoutFolder, pos_absent h]

theorem extractLocalName_of_not_mem (h : slash ∉ name) : extractLocalName name = name := by
  rw [extractLocalName, lastDelimiter_absent h, drop_zero]

/-! ## The rules of the match -/

variable {t : TextApi}

/-- Of the two names of a site only the one without the folder is the same as it. -/
theorem localName_eq_of_same {name n : UnicodeString}
    (hn : n = name ∨ n = extractLocalName name)
    (hsame : t.sameText n (nameWithoutFolder name) = true) :
    extractLocalName name = nameWithoutFolder name ∧ n = nameWithoutFolder name := by
  by_cases hs : slash ∈ name
  · obtain ⟨a, w, rfl, ha⟩ := exists_first hs
    have hwithout : nameWithoutFolder (a ++ slash :: w) = w := by
      rw [nameWithoutFolder, pos_split ha]
      simp
    rw [hwithout] at hsame ⊢
    obtain rfl | rfl := hn
    · rw [TextApi.sameText, t.text_slash] at hsame
      cases hsame
    · by_cases hw : slash ∈ w
      · obtain ⟨b, c, rfl, hc⟩ := exists_last hw
        have hlocal : extractLocalName (a ++ slash :: (b ++ slash :: c)) = c := by
          rw [← cons_append, ← append_assoc, extractLocalName, lastDelimiter_last _ hc, drop_append,
            drop_of_length_le (Nat.le_succ _), Nat.add_sub_cancel_left]
          rfl
        rw [hlocal, TextApi.sameText, t.text.same_comm, t.text_slash] at hsame
        cases hsame
      · have hlocal : extractLocalName (a ++ slash :: w) = w := by
          rw [extractLocalName, lastDelimiter_last _ hw]
          simp
        exact ⟨hlocal, hlocal⟩
  · rw [nameWithoutFolder_of_not_mem hs, extractLocalName_of_not_mem hs]
    rw [extractLocalName_of_not_mem hs, or_self] at hn
    exact ⟨rfl, hn⟩

/-- When a site is taken: its name without the folder begins the text, or
its name is the text. -/
theorem matchesUrl_iff {text name : UnicodeString} :
    matchesUrl t text name = true ↔
      Alike t (text.take (nameWithoutFolder name).length) (nameWithoutFolder name) ∨
        Alike t text name := by
  generalize hw : nameWithoutFolder name = w
  simp only [matchesUrl, hw, Bool.or_eq_true, Bool.and_eq_true, beq_iff_eq, decide_eq_true_eq,
    TextApi.sameStart, take_length, Alike]
  constructor
  · rintro ((⟨hlen, hsame⟩ | ⟨hlen, hsame⟩) | ⟨hlt, hsame⟩)
    · left
      rw [hlen, take_length]
      exact ⟨rfl, t.text.equiv.symm hsame⟩
    · exact .inr ⟨hlen.symm, t.text.equiv.symm hsame⟩
    · exact .inl ⟨length_take_of_le (Nat.le_of_lt hlt), t.text.equiv.symm hsame⟩
  · rintro (⟨hlen, hsame⟩ | ⟨hlen, hsame⟩)
    · rw [length_take] at hlen
      obtain hlt | heq : w.length < text.length ∨ w.length = text.length := by omega
      · exact .inr ⟨hlt, t.text.equiv.symm hsame⟩
      · rw [heq, take_length] at hsame
        exact .inl (.inl ⟨heq, t.text.equiv.symm hsame⟩)
    · exact .inl (.inr ⟨hlen.symm, t.text.equiv.symm hsame⟩)

theorem named_iff {text name : UnicodeString} :
    Named t text name ↔ Alike t (text.take name.length) name ∧
      ∀ c, text[name.length]? = some c → c = slash := by
  constructor
  · rintro (hsame | ⟨a, rest, rfl, hsame⟩)
    · rw [← hsame.1, take_length]
      exact ⟨hsame, by simp⟩
    · rw [← hsame.1, take_left']
      · exact ⟨hsame, by simp⟩
      · rfl
  · rintro ⟨hsame, hnext⟩
    cases hc : text[name.length]? with
    | none =>
      rw [take_of_length_le (List.getElem?_eq_none_iff.mp hc)] at hsame
      exact .inl hsame
    | some c =>
      obtain rfl := hnext c hc
      obtain ⟨hlt, hget⟩ := List.getElem?_eq_some_iff.mp hc
      refine .inr ⟨_, text.drop (name.length + 1), ?_, hsame⟩
      rw [← hget, getElem_cons_drop, take_append_drop]

/-! ## The search for the end of the name -/

variable {url : UnicodeString}

theorem nameEndFrom_some {fuel p q : Nat} (h : nameEndFrom t url name fuel p = some q) :
    p ≤ q ∧ t.sameText (t.decodeUrlChars (url.take q)) name = true ∧
      ∀ i, p ≤ i → i < q → t.sameText (t.decodeUrlChars (url.take i)) name = false := by
  induction fuel generalizing p with
  | zero => cases h
  | succ fuel ih =>
    rw [nameEndFrom] at h
    split at h
    next hsame =>
      obtain rfl := Option.some.inj h
      exact ⟨Nat.le_refl _, hsame, fun i hle hlt => absurd hlt (Nat.not_lt.mpr hle)⟩
    next hne =>
      obtain ⟨hle, hsame, hbefore⟩ := ih h
      refine ⟨by omega, hsame, fun i hi hlt => ?_⟩
      rcases Nat.eq_or_lt_of_le hi with rfl | hi
      · exact Bool.eq_false_iff.mpr hne
      · exact hbefore i hi hlt

theorem nameEndFrom_ne_none {fuel p q : Nat} (hp : p ≤ q) (hq : q < p + fuel)
    (hsame : t.sameText (t.decodeUrlChars (url.take q)) name = true) :
    nameEndFrom t url name fuel p ≠ none := by
  induction fuel generalizing p with
  | zero => omega
  | succ fuel ih =>
    rw [nameEndFrom]
    split
    next => exact Option.some_ne_none _
    next hne =>
      have hpq : p ≠ q := fun he => hne (he ▸ hsame)
      exact ih (by omega) (by omega)

/-- The search does not end when it does not end within the URL: what lies
behind the end of the URL adds nothing. -/
theorem nameEnd_eq_none_iff {url : UnicodeString} (hne : url ≠ []) :
    nameEnd t url name = none ↔ ∀ fuel, nameEndFrom t url name fuel 1 = none := by
  refine ⟨fun h fuel => ?_, fun h => h url.length⟩
  cases hs : nameEndFrom t url name fuel 1 with
  | none => rfl
  | some q =>
    obtain ⟨hq, hsame, -⟩ := nameEndFrom_some hs
    have hpos := length_pos_iff.mpr hne
    refine absurd h (nameEndFrom_ne_none (q := min q url.length) (by omega) (by omega) ?_)
    rcases Nat.le_total q url.length with hle | hle
    · rwa [Nat.min_eq_left hle]
    · rw [Nat.min_eq_right hle, take_length]
      rwa [take_of_length_le hle] at hsame

theorem nameEnd_ne_none_of_same (hne : url ≠ []) {p : Nat} (hp : 1 ≤ p)
    (hsame : t.sameText (t.decodeUrlChars (url.take p)) name = true) :
    nameEnd t url name ≠ none := fun h =>
  nameEndFrom_ne_none hp (Nat.lt_add_of_pos_left (Nat.succ_pos 0)) hsame
    ((nameEnd_eq_none_iff hne).mp h p)

/-! ## The lookup -/

section Lookup

variable {t : Platform} {call : ParseCall} {stored : StoredSessionList}
  {aUrl url text : UnicodeString}

theorem parseUrl_no_site (hs : call.storedSessions = some stored)
    (hcut : cutProtocol t.toTextApi call.httpForWebdav aUrl = ⟨none, [], url⟩) (hne : url ≠ [])
    (hfind : findStored t.toTextApi (t.decodeUrlChars url) (some stored) = some none) :
    ∃ r, parseUrl t call aUrl = some r ∧ r.site = none := by
  simp [parseUrl, hcut, hne, ParseCall.candidates, hs, hfind]

theorem parseUrl_null (hs : call.storedSessions = some stored)
    (hcut : cutProtocol t.toTextApi call.httpForWebdav aUrl = ⟨none, [], url⟩) (hne : url ≠ [])
    (hfind : findStored t.toTextApi (t.decodeUrlChars url) (some stored) = none) :
    parseUrl t call aUrl = none := by
  simp [parseUrl, hcut, hne, ParseCall.candidates, hs, hfind]

theorem parseUrl_site (hs : call.storedSessions = some stored)
    (hcut : cutProtocol t.toTextApi call.httpForWebdav aUrl = ⟨none, [], url⟩) (hne : url ≠ [])
    {s : StoredSession}
    (hfind : findStored t.toTextApi (t.decodeUrlChars url) (some stored) = some (some s)) :
    match nameEnd t.toTextApi url (nameWithoutFolder s.data.name) with
    | none => parseUrl t call aUrl = none
    | some p => ∃ r, parseUrl t call aUrl = some r ∧ r.site = some s ∧ r.directory = url.drop p ∧
        r.session = (setDirectory t.toTextApi call.wantsFileName r.directory s.data).1 := by
  cases hend : nameEnd t.toTextApi url (nameWithoutFolder s.data.name) <;>
    simp [parseUrl, hcut, hne, ParseCall.candidates, hs, hfind, hend, setProtocol]

/-- Where no site is taken, only the texts that no rule looks at are missed. -/
theorem not_named_iff {t : TextApi} {s : StoredSession}
    (h : matchesUrl t text s.data.name = false) :
    (¬ Named t text s.data.name ∧ ¬ Named t text (extractLocalName s.data.name)) ↔
      (slash ∈ s.data.name → ¬ BeforeSlash t text s.data.name) ∧
        (extractLocalName s.data.name ≠ nameWithoutFolder s.data.name →
          ¬ Named t text (extractLocalName s.data.name)) := by
  rw [Bool.eq_false_iff, ne_eq, matchesUrl_iff, not_or] at h
  obtain ⟨hstart, hwhole⟩ := h
  constructor
  · rintro ⟨hname, hlocal⟩
    exact ⟨fun _ hb => hname (.inr hb), fun _ => hlocal⟩
  · rintro ⟨hbefore, hlocal⟩
    refine ⟨fun hname => ?_, fun hname => ?_⟩
    · by_cases hslash : slash ∈ s.data.name
      · exact hname.elim hwhole (hbefore hslash)
      · rw [nameWithoutFolder_of_not_mem hslash] at hstart
        exact hstart (named_iff.mp hname).1
    · by_cases heq : extractLocalName s.data.name = nameWithoutFolder s.data.name
      · exact hstart (named_iff.mp (heq ▸ hname)).1
      · exact hlocal heq hname

/-- Which texts are looked up right. -/
theorem stored_lookup_iff (hs : call.storedSessions = some stored)
    (hcut : cutProtocol t.toTextApi call.httpForWebdav aUrl = ⟨none, [], url⟩) (hne : url ≠ []) :
    LookupRight t.toTextApi stored.sessions call.wantsFileName url (parseUrl t call aUrl) ↔
      LookupSafe t.toTextApi stored url := by
  unfold LookupSafe
  cases hfind : (stored.sessions.take stored.getCount).find? fun s =>
      !s.isWorkspace && matchesUrl t.toTextApi (t.decodeUrlChars url) s.data.name with
  | none =>
    by_cases hcount : stored.getCount < stored.sessions.length
    · have hnull := parseUrl_null hs hcut hne (by simp only [findStored, hfind, if_pos hcount])
      refine iff_of_false (fun ⟨r, hr, _⟩ => ?_) fun h => absurd hcount (Nat.not_lt.mpr h.1)
      rw [hnull] at hr
      cases hr
    · obtain ⟨r, hr, hsite⟩ :=
        parseUrl_no_site hs hcut hne (by simp only [findStored, hfind, if_neg hcount])
      rw [Nat.not_lt] at hcount
      rw [take_of_length_le hcount] at hfind
      simp only [LookupRight, hr, Option.some.injEq, exists_eq_left', hsite, hcount, true_and]
      refine forall₂_congr fun s hmem => imp_congr_right fun hw => not_named_iff ?_
      simpa [hw] using find?_eq_none.mp hfind s hmem
  | some s =>
    have hstored : findStored t.toTextApi (t.decodeUrlChars url) (some stored) = some (some s) := by
      simp only [findStored, hfind]
    have hparse := parseUrl_site hs hcut hne hstored
    have hmem : s ∈ stored.sessions := mem_of_mem_take (List.mem_of_find?_eq_some hfind)
    have hwork : s.isWorkspace = false := by
      have := List.find?_some hfind
      simp only [Bool.and_eq_true, Bool.not_eq_true'] at this
      exact this.1
    cases hend : nameEnd t.toTextApi url (nameWithoutFolder s.data.name) with
    | none =>
      rw [hend] at hparse
      constructor
      · rintro ⟨r, hr, _⟩
        rw [show parseUrl t call aUrl = none from hparse] at hr
        cases hr
      · rintro ⟨_, _, _, p, hp, hsame, -⟩
        exact absurd hend (nameEnd_ne_none_of_same hne hp hsame.2)
    | some p =>
      rw [hend] at hparse
      obtain ⟨r, hr, hsite, hdir, hsession⟩ := hparse
      obtain ⟨hp, hsame, hbefore⟩ := nameEndFrom_some hend
      simp only [LookupRight, hr, Option.some.injEq, exists_eq_left', hsite, hmem, hwork, true_and]
      constructor
      · rintro ⟨-, n, hn, hnamed, a, hurl, ha⟩
        -- the part in front of the directory is the one the search stopped at
        have hapart : a = url.take p := by
          rw [hdir] at hurl
          exact List.append_cancel_right (hurl.symm.trans (List.take_append_drop p url).symm)
        subst hapart
        obtain ⟨hlocal, rfl⟩ :=
          localName_eq_of_same hn (t.text.equiv.trans (t.text.equiv.symm ha.2) hsame)
        exact ⟨hlocal, (named_iff.mp hnamed).1, (named_iff.mp hnamed).2, p, hp, ha, hbefore⟩
      · rintro ⟨hlocal, hstart, hnext, q, hq, halike, hfirst⟩
        -- both are the first place where the texts are the same
        have hpq : p = q := by
          rcases Nat.lt_trichotomy p q with hlt | heq | hlt
          · exact absurd hsame (Bool.eq_false_iff.mp (hfirst p hp hlt))
          · exact heq
          · exact absurd halike.2 (Bool.eq_false_iff.mp (hbefore q hq hlt))
        refine ⟨hsession, _, .inr hlocal.symm, named_iff.mpr ⟨hstart, hnext⟩, url.take p, ?_,
          hpq ▸ halike⟩
        rw [hdir, List.take_append_drop]

end Lookup

/-! ## A site called `server` -/

def serverSite : StoredSession := ⟨{ name := wstr "server" }, false⟩

def serverList : StoredSessionList := { sessions := [serverSite] }

def serverCall : ParseCall := { storedSessions := some serverList }

/-- With a directory behind the name the site is found. -/
theorem stored_lookup_server :
    LookupRight asciiPlatform.toTextApi serverList.sessions false (wstr "Server/dir")
      (parseUrl asciiPlatform serverCall (wstr "netbox:Server/dir")) :=
  (@stored_lookup_iff asciiPlatform serverCall serverList _ _ rfl rfl (by decide)).mpr
    ⟨by decide, ⟨by decide, by decide⟩,
      fun _ hc => Option.some.inj (hc.symm.trans (show _ = some slash by decide)),
      6, by decide, ⟨by decide, by decide⟩, by decide⟩

/-- It is found for another host too. -/
theorem server_taken_for_server2 :
    ¬ LookupRight asciiPlatform.toTextApi serverList.sessions false (wstr "server2")
      (parseUrl asciiPlatform serverCall (wstr "server2")) := by
  rintro ⟨r, hr, hright⟩
  have hsite : (parseUrl asciiPlatform serverCall (wstr "server2")).map (·.site) =
      some (some serverSite) := rfl
  rw [hr, Option.map_some, Option.some.injEq] at hsite
  rw [hsite] at hright
  obtain ⟨-, -, -, n, hn, hnamed, -⟩ := hright
  have hserver : n = wstr "server" := hn.elim id fun h => h.trans (by decide)
  have hnext := (named_iff.mp hnamed).2 50
  rw [hserver] at hnext
  exact absurd (hnext (by decide)) (by decide)

end NetBox.Session
