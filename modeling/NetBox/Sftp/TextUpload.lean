import NetBox.Base.LineEnds
import Mathlib.Data.List.Perm.Subperm

/-! # Uploading a text

`TSFTPUploadQueue` reads the local file in blocks and converts each of them on
its own, with the flags that take away a byte-order mark and a Ctrl-Z. What is
sent for the file is compared with the conversion of the file as a whole.

Text mode is not available for encrypted files, so there is no encryption here.
Progress and logging are left out.
-/

namespace NetBox.Sftp.TextUpload
open Base.FileBuffer Base.LineEnds

structure Settings where
  /-- `OperationProgress->AsciiTransfer` -/
  asciiTransfer : Bool := true
  /-- `GetEOL`: of the server, or of the session for old versions. -/
  eol : Eol
  convertParams : ConvertParams := {}

structure Queue where
  /-- What was not read of the local file. -/
  stream : List UInt8
  transferred : Nat
  convertToken : Bool := false
  ended : Bool := false
  /-- The offset and the data of each write request. -/
  requests : List (Nat × List UInt8) := []
deriving DecidableEq

/-- `GetLocalEOLType` -/
def localEolType : EolType := .crlf

/-- `InitRequest`: the result says whether there is a request. -/
def initRequest (settings : Settings) (blockSize : Nat) (q : Queue) : Bool × Queue :=
  if blockSize = 0 then (false, q)
  else
    let block := q.stream.take blockSize
    let q := { q with stream := q.stream.drop blockSize, ended := block.isEmpty }
    if block.isEmpty then (false, q)
    else
      let (data, token) :=
        if settings.asciiTransfer then
          convert (eolToStr localEolType) settings.eol settings.convertParams q.convertToken block
        else (block, q.convertToken)
      (true, { q with
        convertToken := token
        requests := q.requests ++ [(q.transferred, data)]
        transferred := q.transferred + data.length })

/-- Requests are made until there is none. Each of them but the last reads
something of the file. -/
def uploadLoop (settings : Settings) (blockSize : Nat) : Nat → Queue → Queue
  | 0, q => q
  | fuel + 1, q =>
    match initRequest settings blockSize q with
    | (true, q) => uploadLoop settings blockSize fuel q
    | (false, q) => q

def upload (settings : Settings) (blockSize : Nat) (content : List UInt8) : Queue :=
  uploadLoop settings blockSize (content.length + 1) { stream := content, transferred := 0 }

/-- The bytes sent for the file, in the order of the requests. -/
def Queue.sent (q : Queue) : List UInt8 :=
  q.requests.flatMap Prod.snd

/-- The blocks the file is read in. -/
def cut (blockSize : Nat) : Nat → List UInt8 → List (List UInt8)
  | 0, _ => []
  | fuel + 1, content =>
    if content = [] then []
    else content.take blockSize :: cut blockSize fuel (content.drop blockSize)

def blocks (blockSize : Nat) (content : List UInt8) : List (List UInt8) :=
  cut blockSize content.length content

/-- A line end conversion of a text as one block. -/
def conv (eol : Eol) (text : List UInt8) : List UInt8 :=
  if eol = eolToStr .crlf then text else replace eol.bytes text

/-- What is to be sent: the converted file, without the mark at its very start
and the Ctrl-Z at its very end when they are to be removed. -/
def expected (settings : Settings) (content : List UInt8) : List UInt8 :=
  conv settings.eol (settings.convertParams.strip content)

variable {settings : Settings} {eol : Eol} {params : ConvertParams} {a b : List UInt8}
  {rest : List (List UInt8)}

/-! ## The requests -/

theorem convert_conv (eol : Eol) (params : ConvertParams) (token : Bool) (block : List UInt8) :
    convert (eolToStr localEolType) eol params token block =
      (conv eol (params.strip block), token) := by
  by_cases h : eol = eolToStr .crlf
  · simp only [convert, conv, localEolType, h, if_true]
  · rw [localEolType, convert_replace h, conv, if_neg h]

variable {blockSize : Nat}

theorem initRequest_end (hsize : 1 ≤ blockSize) {q : Queue} (h : q.stream = []) :
    initRequest settings blockSize q = (false, { q with ended := true }) := by
  simp [initRequest, h, Nat.ne_of_gt hsize]

theorem initRequest_block (hascii : settings.asciiTransfer = true) (hsize : 1 ≤ blockSize)
    {q : Queue} (h : q.stream ≠ []) :
    let data := conv settings.eol (settings.convertParams.strip (q.stream.take blockSize))
    initRequest settings blockSize q =
      (true, { q with
        stream := q.stream.drop blockSize
        ended := false
        requests := q.requests ++ [(q.transferred, data)]
        transferred := q.transferred + data.length }) := by
  have hblock : (q.stream.take blockSize).isEmpty = false := by
    rw [List.isEmpty_eq_false_iff, ne_eq, List.take_eq_nil_iff, not_or]
    exact ⟨by omega, h⟩
  simp only [initRequest, if_neg (Nat.ne_of_gt hsize), hblock, Bool.false_eq_true, if_false,
    hascii, if_true, convert_conv]

/-- Each block is converted on its own. -/
theorem uploadLoop_sent (hascii : settings.asciiTransfer = true) (hsize : 1 ≤ blockSize)
    (fuel : Nat) (q : Queue) (hfuel : q.stream.length ≤ fuel) :
    (uploadLoop settings blockSize (fuel + 1) q).sent = q.sent ++
      (cut blockSize fuel q.stream).flatMap fun b =>
        conv settings.eol (settings.convertParams.strip b) := by
  induction fuel generalizing q with
  | zero =>
    have hempty : q.stream = [] := List.eq_nil_of_length_eq_zero (Nat.le_zero.mp hfuel)
    rw [uploadLoop, initRequest_end hsize hempty]
    simp [cut, Queue.sent]
  | succ fuel ih =>
    by_cases hempty : q.stream = []
    · rw [uploadLoop, initRequest_end hsize hempty]
      simp [cut, Queue.sent, hempty]
    · have hlen : (q.stream.drop blockSize).length ≤ fuel := by
        rw [List.length_drop]
        omega
      rw [uploadLoop, initRequest_block hascii hsize hempty, ih _ hlen, cut, if_neg hempty]
      simp [Queue.sent]

theorem flatten_cut (hsize : 1 ≤ blockSize) (fuel : Nat) (content : List UInt8)
    (hfuel : content.length ≤ fuel) : (cut blockSize fuel content).flatten = content := by
  induction fuel generalizing content with
  | zero =>
    have hempty : content = [] := List.eq_nil_of_length_eq_zero (Nat.le_zero.mp hfuel)
    simp [cut, hempty]
  | succ fuel ih =>
    by_cases hempty : content = []
    · simp [cut, hempty]
    · have hlen : (content.drop blockSize).length ≤ fuel := by
        rw [List.length_drop]
        omega
      rw [cut, if_neg hempty, List.flatten_cons, ih _ hlen, List.take_append_drop]

variable {content : List UInt8}

theorem mem_cut (hsize : 1 ≤ blockSize) {fuel : Nat} (h : b ∈ cut blockSize fuel content) :
    b ≠ [] ∧ b.length ≤ blockSize := by
  induction fuel generalizing content with
  | zero => simp [cut] at h
  | succ fuel ih =>
    by_cases hempty : content = []
    · simp [cut, hempty] at h
    · rw [cut, if_neg hempty] at h
      rcases List.mem_cons.mp h with rfl | h
      · refine ⟨fun he => ?_, List.length_take_le _ _⟩
        rcases List.take_eq_nil_iff.mp he with he | he
        · omega
        · exact hempty he
      · exact ih h

/-! ## What the parts of a text become -/

/-- A CR before a cut goes with what follows it, as it is the end of the part
before that is dropped. -/
theorem replace_append (d a b : List UInt8) : replace d (a ++ b) =
    replace d a ++ replace d (if a.getLast? = some cr then cr :: b else b) := by
  induction a using replace.induct with
  | case1 rest ih =>
    have hlast : (13 :: 10 :: rest).getLast? = some cr ↔ rest.getLast? = some cr := by
      cases rest with
      | nil => decide
      | cons c rest => simp
    rw [List.cons_append, List.cons_append, replace, replace, List.append_assoc, ih]
    simp only [hlast]
  | case2 => rfl
  | case3 c rest h1 h2 ih =>
    have hpair : ∀ r, c = 13 → rest ++ b = 10 :: r → False := by
      intro r hc hr
      cases rest with
      | nil => exact h2 hc rfl
      | cons d rest =>
        obtain ⟨hd, -⟩ := List.cons_eq_cons.mp hr
        exact h1 rest hc (by rw [hd])
    have hhalf : c = 13 → rest ++ b = [] → False :=
      fun hc hr => h2 hc (List.append_eq_nil_iff.mp hr).1
    have hlast : (c :: rest).getLast? = some cr ↔ rest.getLast? = some cr := by
      cases rest with
      | nil =>
        have hc : c ≠ cr := fun hc => h2 hc rfl
        simp [hc]
      | cons d rest => simp
    rw [List.cons_append, replace.eq_3 _ _ _ hpair hhalf, replace.eq_3 _ _ _ h1 h2, ih]
    simp only [hlast, List.cons_append]
  | case4 => rfl

theorem replace_cr_of_ne (d : List UInt8) (hne : b ≠ []) (hlf : b.head? ≠ some lf) :
    replace d (cr :: b) = cr :: replace d b := by
  refine replace.eq_3 _ _ _ (fun r _ hb => hlf ?_) fun _ hb => hne hb
  rw [hb]
  rfl

/-- The part of the flags that looks at the end of a text. -/
def stripEnd (params : ConvertParams) (text : List UInt8) : List UInt8 :=
  if params.removeCtrlZ then cutCtrlZ text else text

def stripStart (params : ConvertParams) (text : List UInt8) : List UInt8 :=
  if params.removeBom then cutBom text else text

theorem strip_eq (params : ConvertParams) (text : List UInt8) :
    params.strip text = stripEnd params (stripStart params text) :=
  rfl

theorem stripEnd_cases (params : ConvertParams) (text : List UInt8) :
    (stripEnd params text = text ∧ (params.removeCtrlZ = true → text.getLast? ≠ some ctrlZ)) ∨
      params.removeCtrlZ = true ∧ ∃ a, text = a ++ [ctrlZ] ∧ stripEnd params text = a := by
  rcases List.eq_nil_or_concat text with rfl | ⟨a, c, rfl⟩
  · exact .inl ⟨by simp [stripEnd, cutCtrlZ], by simp⟩
  · by_cases hz : params.removeCtrlZ = true
    · by_cases hc : c = ctrlZ
      · exact .inr ⟨hz, a, by simp [hc], by simp [stripEnd, cutCtrlZ, hz, hc]⟩
      · exact .inl ⟨by simp [stripEnd, cutCtrlZ, hc], fun _ => by simpa using hc⟩
    · exact .inl ⟨by simp [stripEnd, hz], fun h => absurd h hz⟩

theorem stripEnd_append (params : ConvertParams) (a : List UInt8) (hb : b ≠ []) :
    stripEnd params (a ++ b) = a ++ stripEnd params b := by
  rcases List.eq_nil_or_concat b with rfl | ⟨b, c, rfl⟩
  · exact absurd rfl hb
  · by_cases hc : c = ctrlZ
    · have hcut : ∀ x : List UInt8, cutCtrlZ (x ++ [c]) = x := fun x => by
        simp [cutCtrlZ, hc]
      rw [List.concat_eq_append, stripEnd, stripEnd, ← List.append_assoc, hcut, hcut]
      split <;> simp
    · have hcut : ∀ x : List UInt8, cutCtrlZ (x ++ [c]) = x ++ [c] := fun x => by
        simp [cutCtrlZ, hc]
      rw [List.concat_eq_append, stripEnd, stripEnd, ← List.append_assoc, hcut, hcut]
      split <;> simp

theorem stripStart_bom (hm : params.removeBom = true) (text : List UInt8) :
    stripStart params (bom ++ text) = text := by
  simp [stripStart, hm, cutBom, bom]

theorem stripStart_cases (params : ConvertParams) (text : List UInt8) :
    (stripStart params text = text ∧ (params.removeBom = true → ¬ bom <+: text)) ∨
      params.removeBom = true ∧ ∃ a, text = bom ++ a ∧ stripStart params text = a := by
  by_cases hm : params.removeBom = true
  · by_cases hb : bom <+: text
    · obtain ⟨a, rfl⟩ := hb
      exact .inr ⟨hm, a, rfl, stripStart_bom hm a⟩
    · have hcut : ¬ (text.length ≥ 3 ∧ text.take 3 = bom) :=
        fun h => hb (h.2 ▸ List.take_prefix 3 text)
      exact .inl ⟨by simp only [stripStart, hm, if_true, cutBom, if_neg hcut], fun _ => hb⟩
  · exact .inl ⟨by simp [stripStart, hm], fun h => absurd h hm⟩

/-! ## What the blocks lose -/

/-- `sent` has the bytes of `whole` but for `z` Ctrl-Zs, `m` marks and `c` CRs,
and for `s` line ends of which the LF was sent. -/
def Loses (eol : Eol) (whole sent : List UInt8) (z m c s : Nat) : Prop :=
  ∀ v, whole.count v + s * [lf].count v =
    sent.count v + z * [ctrlZ].count v + m * bom.count v + c * [cr].count v + s * eol.bytes.count v

variable {whole whole' sent sent' : List UInt8} {z m c s z' m' c' s' : Nat} {v : UInt8}

theorem Loses.refl (eol : Eol) (text : List UInt8) : Loses eol text text 0 0 0 0 :=
  fun v => by simp

theorem Loses.trans (h : Loses eol whole sent z m c s) (h' : Loses eol sent sent' z' m' c' s') :
    Loses eol whole sent' (z + z') (m + m') (c + c') (s + s') := by
  intro v
  have h := h v
  have h' := h' v
  simp only [Nat.add_mul]
  omega

theorem Loses.append (h : Loses eol whole sent z m c s) (h' : Loses eol whole' sent' z' m' c' s') :
    Loses eol (whole ++ whole') (sent ++ sent') (z + z') (m + m') (c + c') (s + s') := by
  intro v
  have h := h v
  have h' := h' v
  simp only [Nat.add_mul, List.count_append]
  omega

/-- Two texts that are the same have lost nothing that shows. -/
theorem Loses.none (h : Loses eol whole whole z m c s) :
    z = 0 ∧ m = 0 ∧ c = 0 ∧ (s = 0 ∨ eol.bytes = [lf]) := by
  have hz := h ctrlZ
  have hm := h 0xEF
  have hc := h cr
  have hz0 : z = 0 := by simp [ctrlZ, lf, cr, bom] at hz; omega
  have hm0 : m = 0 := by simp [ctrlZ, lf, cr, bom] at hm; omega
  have hc0 : c = 0 := by simp [ctrlZ, lf, cr, bom] at hc; omega
  refine ⟨hz0, hm0, hc0, ?_⟩
  by_cases hs : s = 0
  · exact .inl hs
  · refine .inr (List.perm_singleton.mp (List.perm_iff_count.mpr fun v => ?_))
    have hv := h v
    simp only [hz0, hm0, hc0, Nat.zero_mul, Nat.add_zero, Nat.add_left_cancel_iff] at hv
    exact (Nat.eq_of_mul_eq_mul_left (Nat.pos_of_ne_zero hs) hv).symm

/-- The parts before and behind a cut are converted as the text is there. -/
def Joins (eol : Eol) (a b : List UInt8) : Prop :=
  eol ≠ eolToStr .crlf → a.getLast? = some cr → b = [] ∨ eol.bytes = [lf] ∧ b.head? = some lf

theorem conv_append (h : Joins eol a b) : conv eol (a ++ b) = conv eol a ++ conv eol b := by
  by_cases he : eol = eolToStr .crlf
  · simp only [conv, he, if_true]
  · simp only [conv, he, if_false]
    rw [replace_append]
    by_cases ha : a.getLast? = some cr
    · rw [if_pos ha]
      rcases h he ha with rfl | ⟨hd, hb⟩
      · rfl
      · obtain ⟨b, rfl⟩ := List.head?_eq_some_iff.mp hb
        rw [hd]
        rfl
    · rw [if_neg ha]

/-- What is lost at a cut. -/
theorem loses_cut (eol : Eol) (a b : List UInt8) :
    ∃ c s, Loses eol (conv eol (a ++ b)) (conv eol a ++ conv eol b) 0 0 c s ∧
      (c = 0 → (s = 0 ∨ eol.bytes = [lf]) → Joins eol a b) := by
  by_cases h : Joins eol a b
  · exact ⟨0, 0, conv_append h ▸ Loses.refl eol _, fun _ _ => h⟩
  · rw [Joins, Classical.not_imp, Classical.not_imp, not_or] at h
    obtain ⟨he, ha, hne, hlf⟩ := h
    have hwhole : conv eol (a ++ b) = conv eol a ++ replace eol.bytes (cr :: b) := by
      simp only [conv, he, if_false]
      rw [replace_append, if_pos ha]
    have hb : conv eol b = replace eol.bytes b := if_neg he
    rw [hwhole, hb]
    by_cases hhead : b.head? = some lf
    · obtain ⟨b, rfl⟩ := List.head?_eq_some_iff.mp hhead
      refine ⟨0, 1, fun v => ?_, fun _ hd => ?_⟩
      · have hpair : replace eol.bytes (cr :: lf :: b) = eol.bytes ++ replace eol.bytes b := rfl
        have hline : replace eol.bytes (lf :: b) = [lf] ++ replace eol.bytes b := rfl
        rw [hpair, hline]
        simp only [List.count_append]
        omega
      · exact absurd ⟨hd.resolve_left (by omega), hhead⟩ hlf
    · refine ⟨1, 0, fun v => ?_, fun hc => by omega⟩
      rw [replace_cr_of_ne _ hne hhead, ← List.singleton_append]
      simp only [List.count_append]
      omega

/-- What a Ctrl-Z takes along at the end of a block. -/
theorem loses_end (eol : Eol) (params : ConvertParams) (b : List UInt8) :
    ∃ z c s, Loses eol (conv eol b) (conv eol (stripEnd params b)) z 0 c s ∧
      (z = 0 → params.removeCtrlZ = true → b.getLast? ≠ some ctrlZ) := by
  obtain ⟨hb, hlast⟩ | ⟨-, a, rfl, ha⟩ := stripEnd_cases params b
  · exact ⟨0, 0, 0, by rw [hb]; exact Loses.refl eol _, fun _ => hlast⟩
  · obtain ⟨c, s, hcut, -⟩ := loses_cut eol a [ctrlZ]
    have hone : conv eol [ctrlZ] = [ctrlZ] := by
      unfold conv
      split <;> rfl
    have hz : Loses eol (conv eol a ++ conv eol [ctrlZ]) (conv eol a) 1 0 0 0 := fun v => by
      rw [hone]
      simp only [List.count_append]
      omega
    exact ⟨0 + 1, c + 0, s + 0, by rw [ha]; exact hcut.trans hz, fun h => by omega⟩

theorem conv_bom (eol : Eol) (text : List UInt8) : conv eol (bom ++ text) = bom ++ conv eol text := by
  have hjoin : Joins eol bom text := fun _ h => by simp [bom, cr] at h
  have hbom : conv eol bom = bom := by
    unfold conv
    split <;> rfl
  rw [conv_append hjoin, hbom]

theorem stripEnd_bom (params : ConvertParams) (text : List UInt8) :
    stripEnd params (bom ++ text) = bom ++ stripEnd params text := by
  by_cases ht : text = []
  · subst ht
    unfold stripEnd
    split <;> rfl
  · exact stripEnd_append params bom ht

theorem loses_bom (eol : Eol) (params : ConvertParams) (text : List UInt8) :
    Loses eol (conv eol (stripEnd params (bom ++ text))) (conv eol (stripEnd params text)) 0 1 0 0 := by
  intro v
  rw [stripEnd_bom, conv_bom]
  simp only [List.count_append]
  omega

/-! ## Cuts that lose nothing -/

/-- The cut between block `b` and block `next`, where `after` is all that
follows it in the file. -/
structure CleanCut (eol : Eol) (params : ConvertParams) (b next after : List UInt8) : Prop where
  noCtrlZ : params.removeCtrlZ = true → b.getLast? ≠ some ctrlZ
  noMark : params.removeBom = true → ¬ bom <+: next
  lineEnd : eol ≠ eolToStr .crlf → b.getLast? = some cr →
    (eol.bytes = [lf] ∧ next.head? = some lf) ∨
      (params.removeCtrlZ = true ∧ after = [ctrlZ])

def CleanCuts (eol : Eol) (params : ConvertParams) : List (List UInt8) → Prop
  | b :: next :: rest =>
    CleanCut eol params b next (next ++ rest.flatten) ∧ CleanCuts eol params (next :: rest)
  | _ => True

/-- What the blocks become together when the first is not looked at for a
mark. -/
def sentBlocks (eol : Eol) (params : ConvertParams) (b : List UInt8) (rest : List (List UInt8)) :
    List UInt8 :=
  conv eol (stripEnd params b) ++ rest.flatMap fun b => conv eol (params.strip b)

theorem stripEnd_eq_nil (hb : b ≠ []) (h : stripEnd params b = []) :
    params.removeCtrlZ = true ∧ b = [ctrlZ] := by
  obtain ⟨hb', -⟩ | ⟨hz, a, rfl, ha⟩ := stripEnd_cases params b
  · exact absurd (hb'.symm.trans h) hb
  · rw [h] at ha
    exact ⟨hz, by rw [← ha]; rfl⟩

/-- The end of a text is stripped, its head only when nothing else is there. -/
theorem stripEnd_head (hv : b.head? = some v) (hz : v ≠ ctrlZ) :
    (stripEnd params b).head? = some v := by
  obtain ⟨b, rfl⟩ := List.head?_eq_some_iff.mp hv
  by_cases hb : b = []
  · subst hb
    simp [stripEnd, cutCtrlZ, hz]
  · rw [← List.singleton_append, stripEnd_append params [v] hb]
    rfl

theorem head?_of_stripEnd (h : (stripEnd params b).head? = some v) : b.head? = some v := by
  obtain ⟨hb, -⟩ | ⟨-, a, rfl, ha⟩ := stripEnd_cases params b
  · rwa [hb] at h
  · rw [ha] at h
    simp [h]

variable {next after : List UInt8}

theorem CleanCut.joins (h : CleanCut eol params b next (next ++ after)) :
    Joins eol b (stripEnd params (next ++ after)) := by
  intro he hb
  rcases h.lineEnd he hb with ⟨hd, hlf⟩ | ⟨hz, hafter⟩
  · refine .inr ⟨hd, stripEnd_head ?_ (by decide)⟩
    simp [hlf]
  · refine .inl ?_
    rw [hafter]
    simp [stripEnd, hz, cutCtrlZ]

theorem CleanCut.stripEnd (h : CleanCut eol params b next after) :
    TextUpload.stripEnd params b = b := by
  obtain ⟨hb, -⟩ | ⟨hz, a, rfl, -⟩ := stripEnd_cases params b
  · exact hb
  · exact absurd (by simp) (h.noCtrlZ hz)

theorem sentBlocks_of_clean (hne : ∀ b' ∈ rest, b' ≠ []) (h : CleanCuts eol params (b :: rest)) :
    sentBlocks eol params b rest = conv eol (stripEnd params (b ++ rest.flatten)) := by
  induction rest generalizing b with
  | nil => simp [sentBlocks]
  | cons next rest ih =>
    obtain ⟨hcut, h⟩ := h
    have hnext : next ≠ [] := hne next List.mem_cons_self
    have hstart : params.strip next = stripEnd params next := by
      obtain ⟨hn, -⟩ | ⟨hm, a, rfl, -⟩ := stripStart_cases params next
      · rw [strip_eq, hn]
      · exact absurd (List.prefix_append _ _) (hcut.noMark hm)
    have ih := ih (fun b hb => hne b (List.mem_cons_of_mem _ hb)) h
    rw [sentBlocks] at ih ⊢
    rw [List.flatMap_cons, hstart, ih, hcut.stripEnd, ← conv_append hcut.joins,
      List.flatten_cons, stripEnd_append params b (by simp [hnext])]

theorem sentBlocks_cons (eol : Eol) (params : ConvertParams) (b next : List UInt8)
    (rest : List (List UInt8)) : sentBlocks eol params b (next :: rest) =
      conv eol (stripEnd params b) ++ sentBlocks eol params (stripStart params next) rest :=
  rfl

/-- A cut at which nothing is lost. -/
theorem cleanCut_of_joins (hne : next ≠ [])
    (hlast : params.removeCtrlZ = true → b.getLast? ≠ some ctrlZ)
    (hmark : params.removeBom = true → ¬ bom <+: next)
    (hjoins : Joins eol b (stripEnd params (next ++ after))) :
    CleanCut eol params b next (next ++ after) := by
  refine ⟨hlast, hmark, fun he hb => ?_⟩
  rcases hjoins he hb with hnil | ⟨hd, hlf⟩
  · exact .inr (stripEnd_eq_nil (by simp [hne]) hnil)
  · have hhead := head?_of_stripEnd hlf
    rw [List.head?_append_of_ne_nil _ hne] at hhead
    exact .inl ⟨hd, hhead⟩

theorem loses_blocks (eol : Eol) (params : ConvertParams) (b : List UInt8)
    (hne : ∀ b' ∈ rest, b' ≠ []) :
    ∃ z m c s, Loses eol (conv eol (stripEnd params (b ++ rest.flatten)))
        (sentBlocks eol params b rest) z m c s ∧
      (z = 0 → m = 0 → c = 0 → (s = 0 ∨ eol.bytes = [lf]) → CleanCuts eol params (b :: rest)) ∧
      ((∀ b' ∈ rest, ¬ bom <+: b') → m = 0) := by
  induction rest generalizing b with
  | nil =>
    refine ⟨0, 0, 0, 0, ?_, fun _ _ _ _ => trivial, fun _ => rfl⟩
    simpa [sentBlocks] using Loses.refl eol _
  | cons next rest ih =>
    have hnext : next ≠ [] := hne next List.mem_cons_self
    have hrest : ∀ b' ∈ rest, b' ≠ [] := fun b hb => hne b (List.mem_cons_of_mem _ hb)
    obtain ⟨c₁, s₁, hcut, hjoins⟩ := loses_cut eol b (stripEnd params (next ++ rest.flatten))
    obtain ⟨z₂, c₂, s₂, hend, hlast⟩ := loses_end eol params b
    rw [List.flatten_cons, stripEnd_append params b (by simp [hnext]), sentBlocks_cons]
    obtain ⟨hstart, hmark⟩ | ⟨hm, a, rfl, hstart⟩ := stripStart_cases params next
    · obtain ⟨z, m, c, s, hloses, hclean, hnone⟩ := ih next hrest
      rw [hstart]
      refine ⟨_, _, _, _, hcut.trans (hend.append hloses), fun hz hm hc hs => ?_, fun h => ?_⟩
      · have hs₁ : s₁ = 0 ∨ eol.bytes = [lf] := hs.imp_left fun h => by omega
        have hs₃ : s = 0 ∨ eol.bytes = [lf] := hs.imp_left fun h => by omega
        exact ⟨cleanCut_of_joins hnext (hlast (by omega)) hmark (hjoins (by omega) hs₁),
          hclean (by omega) (by omega) (by omega) hs₃⟩
      · have := hnone fun b hb => h b (List.mem_cons_of_mem _ hb)
        omega
    · -- the mark of the next block is lost
      obtain ⟨z, m, c, s, hloses, -, -⟩ := ih a hrest
      have hbom := (loses_bom eol params (a ++ rest.flatten)).trans hloses
      rw [← List.append_assoc] at hbom
      rw [hstart]
      refine ⟨_, _, _, _, hcut.trans (hend.append hbom), fun _ hm => by omega, fun h => ?_⟩
      exact absurd (List.prefix_append _ _) (h _ List.mem_cons_self)

theorem sentBlocks_iff (b : List UInt8) (hne : ∀ b' ∈ rest, b' ≠ []) :
    sentBlocks eol params b rest = conv eol (stripEnd params (b ++ rest.flatten)) ↔
      CleanCuts eol params (b :: rest) := by
  constructor
  · intro h
    obtain ⟨z, m, c, s, hloses, hclean, -⟩ := loses_blocks eol params b hne
    rw [h] at hloses
    obtain ⟨hz, hm, hc, hs⟩ := hloses.none
    exact hclean hz hm hc hs
  · exact sentBlocks_of_clean hne

/-- A mark before the first block changes none of the cuts. -/
theorem cleanCuts_bom (a : List UInt8) :
    CleanCuts eol params ((bom ++ a) :: rest) ↔ CleanCuts eol params (a :: rest) := by
  have hlast : ∀ v, v = ctrlZ ∨ v = cr → ((bom ++ a).getLast? = some v ↔ a.getLast? = some v) := by
    intro v hv
    rcases List.eq_nil_or_concat a with rfl | ⟨a, c, rfl⟩
    · rcases hv with rfl | rfl <;> decide
    · simp
  cases rest with
  | nil => rfl
  | cons next rest =>
    rw [CleanCuts, CleanCuts]
    refine and_congr_left fun _ => ⟨fun h => ⟨?_, h.noMark, ?_⟩, fun h => ⟨?_, h.noMark, ?_⟩⟩
    · exact fun hz => (not_congr (hlast _ (.inl rfl))).mp (h.noCtrlZ hz)
    · exact fun he hb => h.lineEnd he ((hlast _ (.inr rfl)).mpr hb)
    · exact fun hz => (not_congr (hlast _ (.inl rfl))).mpr (h.noCtrlZ hz)
    · exact fun he hb => h.lineEnd he ((hlast _ (.inr rfl)).mp hb)

/-- A line end has two characters at most, a mark has three. -/
theorem exists_bom_not_mem (eol : Eol) : ∃ v ∈ bom, v ∉ eol.bytes := by
  by_contra h
  have hsub : bom ⊆ eol.bytes := fun v hv => by
    by_contra hd
    exact h ⟨v, hv, hd⟩
  have hlen := (List.subperm_of_subset (by decide) hsub).length_le
  unfold Eol.bytes at hlen
  split at hlen <;> simp [bom] at hlen

/-- A mark that was not removed is not made up for by what was lost. -/
theorem mark_not_lost (h : Loses eol (bom ++ whole) whole z 0 c s) : False := by
  obtain ⟨v, hv, hd⟩ := exists_bom_not_mem eol
  have hcount := h v
  rw [List.count_append, List.count_eq_zero.mpr hd] at hcount
  simp only [bom, List.mem_cons, List.not_mem_nil, or_false] at hv
  rcases hv with rfl | rfl | rfl <;> simp [bom, lf, cr, ctrlZ] at hcount

/-! ## The result -/

/-- No cut of the file loses anything, and a mark at its start is in the first
block. -/
structure Clean (settings : Settings) (blockSize : Nat) (content : List UInt8) : Prop where
  mark : settings.convertParams.removeBom = true → bom <+: content → 3 ≤ blockSize
  cuts : CleanCuts settings.eol settings.convertParams (blocks blockSize content)

theorem blocks_cons (h : blocks blockSize content = b :: rest) : b = content.take blockSize := by
  unfold blocks at h
  cases content with
  | nil => cases h
  | cons v content =>
    rw [List.length_cons, cut, if_neg (by simp)] at h
    exact (List.cons_eq_cons.mp h).1.symm

theorem upload_sent (hascii : settings.asciiTransfer = true) (hsize : 1 ≤ blockSize)
    (content : List UInt8) :
    (upload settings blockSize content).sent = (blocks blockSize content).flatMap fun b =>
      conv settings.eol (settings.convertParams.strip b) :=
  uploadLoop_sent hascii hsize content.length _ (Nat.le_refl _)

theorem short_first_block (hblocks : blocks blockSize content = b :: rest) (hmark : ¬ bom <+: b)
    (hbom : bom <+: content) : blockSize < 3 := by
  by_contra h
  refine hmark ?_
  rw [blocks_cons hblocks]
  exact List.prefix_take_iff.mpr ⟨hbom, Nat.le_of_not_lt h⟩

theorem unmarked_of_short (hsize : 1 ≤ blockSize) (hshort : blockSize < 3)
    (hb : b ∈ blocks blockSize content) : ¬ bom <+: b := by
  intro h
  have hlen := h.length_le
  have hle := (mem_cut hsize hb).2
  have hthree : bom.length = 3 := rfl
  omega

/-- A text is sent as its conversion without the mark at its start and the
Ctrl-Z at its end exactly when its blocks lose nothing else. A block is
stripped as if it were the file: it must not end with Ctrl-Z, begin with a mark
or end with a CR that is converted otherwise in the file, and a mark at the
start of the file must fit into the first block. -/
theorem upload_expected_iff (hascii : settings.asciiTransfer = true) {blockSize : Nat}
    (hsize : 1 ≤ blockSize) (content : List UInt8) :
    (upload settings blockSize content).sent = expected settings content ↔
      Clean settings blockSize content := by
  have hflat : (blocks blockSize content).flatten = content :=
    flatten_cut hsize _ content (Nat.le_refl _)
  rw [upload_sent hascii hsize, expected, strip_eq]
  rcases hblocks : blocks blockSize content with _ | ⟨b, rest⟩
  · -- an empty file
    rw [hblocks, List.flatten_nil] at hflat
    subst hflat
    refine ⟨fun _ => ⟨fun _ h => ?_, by rw [hblocks]; trivial⟩, fun _ => ?_⟩
    · simp [bom] at h
    · simp [stripStart, stripEnd, cutBom, cutCtrlZ, conv, replace]
  · rw [hblocks, List.flatten_cons] at hflat
    have hmem : ∀ b' ∈ b :: rest, b' ≠ [] ∧ b'.length ≤ blockSize :=
      fun b' hb => mem_cut hsize (hblocks ▸ hb)
    have hne : ∀ b' ∈ rest, b' ≠ [] := fun b' hb => (hmem b' (List.mem_cons_of_mem _ hb)).1
    have hsent : (b :: rest).flatMap (fun b => conv settings.eol (settings.convertParams.strip b)) =
        sentBlocks settings.eol settings.convertParams
          (stripStart settings.convertParams b) rest := rfl
    rw [hsent]
    obtain ⟨hb, hmark⟩ | ⟨hm, a, rfl, ha⟩ := stripStart_cases settings.convertParams b
    · rw [hb]
      obtain ⟨hc, hnomark⟩ | ⟨hm, x, hx, hc⟩ := stripStart_cases settings.convertParams content
      · rw [hc, ← hflat, sentBlocks_iff b hne, hflat]
        exact ⟨fun h => ⟨fun hm hbom => absurd hbom (hnomark hm), hblocks ▸ h⟩,
          fun h => hblocks ▸ h.cuts⟩
      · -- the mark of the file is cut, so it is not removed
        have hbom : bom <+: content := hx ▸ List.prefix_append _ _
        have hshort := short_first_block hblocks (hmark hm) hbom
        refine ⟨fun h => ?_, fun h => absurd (h.mark hm hbom) (by omega)⟩
        obtain ⟨z, m, c, s, hloses, -, hnone⟩ :=
          loses_blocks settings.eol settings.convertParams b hne
        have hm0 : m = 0 := hnone fun b' hb =>
          unmarked_of_short hsize hshort (hblocks ▸ List.mem_cons_of_mem _ hb)
        rw [hflat, hx, stripEnd_bom, conv_bom, h, hc, hm0] at hloses
        exact (mark_not_lost hloses).elim
    · have hbom : bom.length ≤ (bom ++ a).length := by simp
      have hfirst := (hmem _ List.mem_cons_self).2
      rw [ha, ← hflat, List.append_assoc, stripStart_bom hm, sentBlocks_iff a hne,
        ← cleanCuts_bom, ← List.append_assoc, hflat]
      exact ⟨fun h => ⟨fun _ _ => Nat.le_trans hbom hfirst, hblocks ▸ h⟩, fun h => hblocks ▸ h.cuts⟩

/-- Both flags, and LF on the server. -/
def sampleSettings : Settings where
  eol := eolToStr .lf
  convertParams := { removeCtrlZ := true, removeBom := true }

/-- A Ctrl-Z in the middle of the file is dropped at the end of a block. -/
theorem upload_drops_inner_ctrlZ :
    (upload sampleSettings 2 [97, 0x1A, 98]).sent = [97, 98] ∧
      expected sampleSettings [97, 0x1A, 98] = [97, 0x1A, 98] ∧
      (upload sampleSettings 3 [97, 0x1A, 98]).sent = [97, 0x1A, 98] := by
  decide

theorem upload_expected_iff_sample : (upload sampleSettings 4 [0xEF, 0xBB, 0xBF, 97, 98, 0x1A]).sent =
    expected sampleSettings [0xEF, 0xBB, 0xBF, 97, 98, 0x1A] := by
  refine (upload_expected_iff rfl (by decide) _).mpr ⟨fun _ _ => by decide, ?_⟩
  refine ⟨⟨fun _ => by decide, fun _ => by decide, fun _ h => ?_⟩, trivial⟩
  exact absurd h (by decide)

end NetBox.Sftp.TextUpload
