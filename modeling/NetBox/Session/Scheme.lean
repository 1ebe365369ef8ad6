import NetBox.Session.ParseUrl

/-! # What is read as a protocol

A protocol is recognised by the text before the first colon, and by nothing
behind it. So a text whose beginning has a colon is cut the same way whatever
follows.
-/
namespace NetBox.Session
open Base.Text List

variable {t : TextApi} {a rest url protocol : UnicodeString}

theorem lowerCase_append (a b : UnicodeString) :
    t.lowerCase (a ++ b) = t.lowerCase a ++ t.lowerCase b := map_append

theorem colon_not_mem_of_lowerCase_eq {a b : UnicodeString} (h : t.lowerCase a = t.lowerCase b)
    (hb : colon ∉ b) : colon ∉ a := by
  intro ha
  have hmem : colon ∈ t.lowerCase b := h ▸ mem_map.mpr ⟨colon, ha, t.lower_colon⟩
  obtain ⟨c, hc, heq⟩ := mem_map.mp hmem
  exact hb (t.lower_eq_colon c heq ▸ hc)

/-- The text before the first colon is determined by the text. -/
theorem split_colon_inj {a b r s : UnicodeString} (h : a ++ colon :: r = b ++ colon :: s)
    (ha : colon ∉ a) (hb : colon ∉ b) : a = b ∧ r = s := by
  have hab : a = b := by
    rw [← takeWhile_until ha r, h, takeWhile_until hb]
  subst hab
  exact ⟨rfl, by simpa using h⟩

/-- A name that can stand before the colon. -/
def isScheme (protocol : UnicodeString) : Bool := isAscii protocol && !protocol.contains colon

theorem isScheme_iff : isScheme protocol = true ↔ isAscii protocol = true ∧ colon ∉ protocol := by
  simp [isScheme]

theorem doIsProtocolUrl_iff (hp : isScheme protocol = true) :
    doIsProtocolUrl t url protocol = true ↔
      ∃ a rest, url = a ++ colon :: rest ∧ colon ∉ a ∧ t.sameText a protocol = true := by
  obtain ⟨hascii, hp⟩ := isScheme_iff.mp hp
  have hwith : isAscii (protocol ++ [colon]) = true := by
    rw [isAscii, all_append, Bool.and_eq_true]
    exact ⟨hascii, by decide⟩
  rw [doIsProtocolUrl, TextApi.sameText_iff hwith, lowerCase_append]
  constructor
  · intro h
    have hlen := congrArg List.length h
    simp only [TextApi.lowerCase, length_map, length_take, length_append,
      length_singleton] at hlen
    have hlt : protocol.length < url.length := by omega
    have hsplit : url.take (protocol.length + 1) = url.take protocol.length ++ [url[protocol.length]] :=
      take_succ_eq_append_getElem hlt
    rw [hsplit, lowerCase_append] at h
    obtain ⟨hname, hcolon⟩ := append_inj' h rfl
    have hc : url[protocol.length] = colon :=
      t.lower_eq_colon _ ((singleton_inj.mp hcolon).trans t.lower_colon)
    refine ⟨url.take protocol.length, url.drop (protocol.length + 1), ?_,
      colon_not_mem_of_lowerCase_eq hname hp, (TextApi.sameText_iff hascii).mpr hname⟩
    rw [← hc, getElem_cons_drop, take_append_drop]
  · rintro ⟨a, rest, rfl, -, hsame⟩
    have htake : (a ++ colon :: rest).take (protocol.length + 1) = a ++ [colon] := by
      rw [← TextApi.length_eq_of_sameText hascii hsame]
      simp [take_append, take_of_length_le]
    rw [htake, lowerCase_append, (TextApi.sameText_iff hascii).mp hsame]

theorem doIsProtocolUrl_split (hp : isScheme protocol = true) (ha : colon ∉ a) :
    doIsProtocolUrl t (a ++ colon :: rest) protocol = t.sameText a protocol := by
  rw [Bool.eq_iff_iff, doIsProtocolUrl_iff hp]
  constructor
  · rintro ⟨b, s, h, hb, hsame⟩
    exact (split_colon_inj h ha hb).1 ▸ hsame
  · exact fun hsame => ⟨a, rest, rfl, ha, hsame⟩

/-- The name of a protocol, alone or with the prefix of the program. -/
def ProtocolRow.isNamed (t : TextApi) (row : ProtocolRow) (a : UnicodeString) : Bool :=
  t.sameText a row.name || t.sameText a (winScpProtocolPrefix ++ row.name)

theorem protocols_names (httpForWebdav hasNetboxPrefix : Bool) :
    ∀ row ∈ protocols httpForWebdav hasNetboxPrefix,
      isScheme row.name = true ∧ isScheme (winScpProtocolPrefix ++ row.name) = true ∧
        2 ≤ row.name.length := by
  cases httpForWebdav <;> cases hasNetboxPrefix <;> decide

theorem isProtocolUrl_split {row : ProtocolRow} (hname : isScheme row.name = true)
    (hprefixed : isScheme (winScpProtocolPrefix ++ row.name) = true) (ha : colon ∉ a) :
    isProtocolUrl t (a ++ colon :: rest) row.name =
      if row.isNamed t a then some (a.length + 1) else none := by
  rw [isProtocolUrl, doIsProtocolUrl_split hname ha, doIsProtocolUrl_split hprefixed ha,
    ProtocolRow.isNamed]
  by_cases h1 : t.sameText a row.name = true
  · simp [h1, TextApi.length_eq_of_sameText (isScheme_iff.mp hname).1 h1]
  · by_cases h2 : t.sameText a (winScpProtocolPrefix ++ row.name) = true
    · simp [h1, h2, TextApi.length_eq_of_sameText (isScheme_iff.mp hprefixed).1 h2]
    · simp [h1, h2]

/-- The protocol that a text before a colon means. -/
def protocolNamed (t : TextApi) (httpForWebdav hasNetboxPrefix : Bool) (a : UnicodeString) :
    Option ProtocolRow :=
  (protocols httpForWebdav hasNetboxPrefix).find? (·.isNamed t a)

theorem cutNamed_split (httpForWebdav hasNetboxPrefix : Bool) (ha : colon ∉ a) :
    cutNamed t httpForWebdav hasNetboxPrefix (a ++ colon :: rest) =
      match protocolNamed t httpForWebdav hasNetboxPrefix a with
      | none => ⟨none, [], a ++ colon :: rest⟩
      | some row => ⟨some row, a ++ colon :: (cutSlashes rest).1, (cutSlashes rest).2⟩ := by
  have hfound : ∀ rows : List ProtocolRow,
      (∀ row ∈ rows, isScheme row.name = true ∧
        isScheme (winScpProtocolPrefix ++ row.name) = true) →
      (rows.findSome? fun row =>
        (isProtocolUrl t (a ++ colon :: rest) row.name).map fun len => (row, len)) =
      (rows.find? (·.isNamed t a)).map fun row => (row, a.length + 1) := by
    intro rows hrows
    induction rows with
    | nil => rfl
    | cons row rows ih =>
      have hrow := hrows row mem_cons_self
      have ih := ih fun r hr => hrows r (mem_cons_of_mem _ hr)
      rw [findSome?_cons, List.find?_cons, isProtocolUrl_split hrow.1 hrow.2 ha]
      by_cases hn : row.isNamed t a = true
      · simp [hn]
      · simp only [hn, if_false, Option.map_none, Bool.false_eq_true]
        exact ih
  unfold cutNamed
  rw [hfound _ fun row hrow => ⟨(protocols_names _ _ row hrow).1, (protocols_names _ _ row hrow).2.1⟩,
    protocolNamed]
  cases (protocols httpForWebdav hasNetboxPrefix).find? (·.isNamed t a) with
  | none => rfl
  | some row => simp [take_append, take_of_length_le]

theorem cutNetbox_eq (url : UnicodeString) :
    cutNetbox t url = if doIsProtocolUrl t url (wstr "netbox") then
      (true, (cutSlashes (url.drop 7)).2) else (false, url) := by
  have hfixed : t.lowerCase (wstr "netbox:") = wstr "netbox:" := t.lowerCase_lower (by decide)
  have hiff : t.lowerCase (url.take 7) = wstr "netbox:" ↔
      doIsProtocolUrl t url (wstr "netbox") = true := by
    rw [doIsProtocolUrl, TextApi.sameText_iff (by decide)]
    show _ ↔ t.lowerCase (url.take 7) = t.lowerCase (wstr "netbox:")
    rw [hfixed]
  rw [cutNetbox]
  by_cases h : t.lowerCase (url.take 7) = wstr "netbox:"
  · rw [if_pos h, if_pos (hiff.mp h)]
  · rw [if_neg h, if_neg fun h' => h (hiff.mpr h')]

/-! ## What follows a colon is cut the same way

The text in front ends in a colon, or nothing is left of it. In the second case
what follows must not look like a protocol, nor begin with slashes.
-/

def Tail (r : UnicodeString) : Prop := r = [] ∨ ∃ v, r = v ++ [colon]

variable {r w : UnicodeString}

theorem Tail.right (h : Tail (a ++ colon :: r)) : Tail r := by
  obtain h | ⟨v, h⟩ := h
  · simp at h
  · rcases eq_nil_or_concat r with rfl | ⟨r', x, rfl⟩
    · exact .inl rfl
    · refine .inr ⟨r', ?_⟩
      rw [concat_eq_append, ← cons_append, ← append_assoc] at h
      rw [concat_eq_append, (append_inj' h rfl).2]

theorem Tail.cutSlashes (h : Tail r) :
    Tail (cutSlashes r).2 ∧
      ∀ w, r ≠ [] ∨ w.take 2 ≠ wstr "//" →
        Session.cutSlashes (r ++ w) = ((Session.cutSlashes r).1, (Session.cutSlashes r).2 ++ w) := by
  have hplain : colon ≠ slash := by decide
  obtain rfl | ⟨v, rfl⟩ := h
  · refine ⟨.inl rfl, fun w hw => ?_⟩
    have hw : w.take 2 ≠ wstr "//" := hw.resolve_left fun h => h rfl
    simp [Session.cutSlashes, hw, show ([] : UnicodeString) ≠ wstr "//" by decide]
  · have htwo : wstr "//" = [slash, slash] := rfl
    match v with
    | [] => exact ⟨.inr ⟨[], by simp [Session.cutSlashes, htwo]⟩,
        fun w _ => by simp [Session.cutSlashes, htwo, hplain]⟩
    | [x] => exact ⟨.inr ⟨[x], by simp [Session.cutSlashes, htwo, hplain]⟩,
        fun w _ => by simp [Session.cutSlashes, htwo, hplain]⟩
    | x :: y :: v =>
      by_cases hxy : [x, y] = wstr "//"
      · exact ⟨.inr ⟨v, by simp [Session.cutSlashes, hxy]⟩,
          fun w _ => by simp [Session.cutSlashes, hxy]⟩
      · exact ⟨.inr ⟨x :: y :: v, by simp [Session.cutSlashes, hxy]⟩,
          fun w _ => by simp [Session.cutSlashes, hxy]⟩

end NetBox.Session
