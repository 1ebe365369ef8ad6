import NetBox.Parallel.Serving
import Mathlib.Data.List.Perm.Subperm

/-! # A list is delivered, whatever fails

What reports do to a list that is being served, and what follows for every
interleaving of calls: all entries are handed out in order, behind their
directories, except those below a directory that failed.
-/

namespace NetBox.Parallel.Serving
open Base.Text Lib.KeyMap Lib.Cursor Lib.Run List
open Parallel.Operation Parallel.Operation.ParallelOperation Parallel.Listing

variable {c : Collation} {side : Side} {rootDir : UnicodeString} {l files A B : List CollectedFile}
  {s : Transfer} {e : CollectedFile} {reported : List (CollectedFile × Bool)}

/-! ## Reports -/

theorem Single.apart (h : Single c side l) : Apart c side l := by
  intro k e he d hd hddir hc q hq hqdir hsame
  by_contra hne
  have hdl := mem_of_mem_take hd
  have hcount := h d hdl hddir e (mem_of_getElem? he) hc
  have hnodup : [q, d].Nodup := by
    simp only [nodup_cons, mem_singleton, not_mem_nil, not_false_eq_true,
      nodup_nil, and_true]
    intro he
    exact hne (congrArg CollectedFile.fileName he)
  have hsub : [q, d] ⊆ l := by simp [mem_of_mem_take hq, hdl]
  have := (hnodup.subperm hsub).countP_le (alike c d.fileName)
  simp only [countP_cons, alike, hqdir, hsame, hddir, Keys.same_refl, Bool.and_self, if_true,
    countP_nil] at this
  omega

variable {q : CollectedFile}

theorem Serves.handed_of_outstanding (h : Serves c side rootDir l s files A B)
    (hq : q ∈ s.outstanding) : q ∈ s.handed :=
  h.account.mem_iff.mpr (mem_append_left _ hq)

theorem Serves.mem_of_handed (h : Serves c side rootDir l s files A B) (hq : q ∈ s.handed) :
    ∃ a ∈ A, a ∈ l ∧ queued a = q := by
  rw [h.handed] at hq
  obtain ⟨a, ha, rfl⟩ := mem_map.mp hq
  exact ⟨a, ha, (h.kept (mem_append_left _ ha)).1, rfl⟩

/-- The report of a directory concerns an entry that waits exactly when it is
the directory of the entry. -/
theorem Serves.same_iff (h : Serves c side rootDir l s files A B) (hl : Collected side rootDir l)
    (hr : Regular c side rootDir l) (ha : Apart c side l) (hq : q ∈ s.handed) (hqdir : q.dir = true)
    (he : e ∈ B) (hpar : ∃ d ∈ l, d.dir = true ∧ ChildOf side d.fileName e.fileName) :
    c.keys.same q.fileName (dirPath side e.fileName) = true ↔
      ChildOf side q.fileName e.fileName := by
  obtain ⟨a, haA, -, rfl⟩ := h.mem_of_handed hq
  obtain ⟨k, hk, hbefore⟩ := h.located he
  have hel := mem_of_getElem? hk
  rcases hl k e hk with htop | ⟨j, d, hj, hd, hdir, hc⟩
  · obtain ⟨d, hdl, hddir, hdc⟩ := hpar
    have := (hr.nested d hdl hddir e hel hdc).1
    rw [hr.top e hel htop] at this
    cases this
  · have hdl := mem_of_getElem? hd
    obtain ⟨_, hdd⟩ := hl.childOf hdl
    have hkey := (hr.nested d hdl hdir e hel hc).2
    rw [hdd.dirPath_child hc, c.keys.same_congr_right hkey]
    constructor
    · intro hsame
      have hdt : d ∈ l.take k := mem_of_getElem? ((getElem?_take_of_lt hj).trans hd)
      have hname : (queued a).fileName = d.fileName :=
        ha k e hk d hdt hdir hc a (hbefore a haA) hqdir hsame
      rw [hname]
      exact hc
    · intro hqc
      rw [childOf_unique hqc hc]
      exact c.keys.same_refl _

theorem account_done {handed outstanding : List CollectedFile} (b : Bool)
    (h : handed.Perm (outstanding ++ reported.map Prod.fst)) (hq : q ∈ outstanding) :
    handed.Perm (outstanding.erase q ++ (reported ++ [(q, b)]).map Prod.fst) := by
  refine h.trans ((perm_cons_erase hq).append_right _ |>.trans ?_)
  rw [map_append, ← append_assoc]
  exact (perm_append_singleton q _).symm

theorem created_append {b : Bool} {path : UnicodeString} :
    created side (reported ++ [(q, b)]) path ↔ created side reported path ∨
      (b = true ∧ q.dir = true ∧ ChildOf side q.fileName path) := by
  constructor
  · intro ⟨d, hd, hdir, hc⟩
    rcases mem_append.mp hd with hd | hd
    · exact .inl ⟨d, hd, hdir, hc⟩
    · cases mem_singleton.mp hd
      exact .inr ⟨rfl, hdir, hc⟩
  · intro h
    rcases h with ⟨d, hd, hdir, hc⟩ | ⟨rfl, hdir, hc⟩
    · exact ⟨d, mem_append_left _ hd, hdir, hc⟩
    · exact ⟨q, by simp, hdir, hc⟩

theorem keeps_append {b : Bool} (x : CollectedFile) :
    keeps side (reported ++ [(q, b)]) x =
      (keeps side reported x && !(!b && q.dir && below side q.fileName x.fileName)) := by
  simp [keeps, any_append, Bool.not_or]

theorem keeps_failed (hq : q.dir = true) :
    keeps side (reported ++ [(q, false)]) = fun x =>
      !below side q.fileName x.fileName && keeps side reported x := by
  funext x
  simp [keeps_append, hq, Bool.and_comm]

/-- A report that takes nothing off the list and does not touch the map. -/
theorem Serves.noted (h : Serves c side rootDir l s files A B) (hq : q ∈ s.outstanding) (b : Bool)
    (hdir : q.dir = false) :
    Serves c side rootDir l
      { s with outstanding := s.outstanding.erase q, reported := s.reported ++ [(q, b)] }
      files A B := by
  have hkeep : keeps side (s.reported ++ [(q, b)]) = keeps side s.reported := by
    funext x
    simp [keeps_append, hdir]
  have hcreated : ∀ path, created side (s.reported ++ [(q, b)]) path ↔ created side s.reported path := by
    intro path
    simp [created_append, hdir]
  exact ⟨h.onSide, h.mode, h.target, h.list, by simp only [hkeep]; exact h.split, h.onList, h.handed,
    h.cursor, account_done b h.account hq, fun x hx => by simp only [hcreated]; exact h.parents x hx,
    h.opposite, h.known, fun x hx hp data hd => by simp only [hcreated]; exact h.marks x hx hp data hd⟩

/-- A directory that was handed out and has entries that wait is in the map. -/
theorem Serves.find_reported (h : Serves c side rootDir l s files A B)
    (hl : Collected side rootDir l) (hr : Regular c side rootDir l) (hq : q ∈ s.handed)
    (hqdir : q.dir = true) (he : e ∈ B) (hc : ChildOf side q.fileName e.fileName) :
    (find? c.keys s.op.directories q.fileName).isSome := by
  have hknown := h.known e he q hq hqdir hc
  obtain ⟨a, -, hal, rfl⟩ := h.mem_of_handed hq
  obtain ⟨_, had⟩ := hl.childOf hal
  have hel := (h.kept (mem_append_right _ he)).1
  have hkey := (hr.nested a hal hqdir e hel hc).2
  have hpath : dirPath side e.fileName = excludeTrailingBackslash a.fileName := had.dirPath_child hc
  rw [hpath, find?_congr c.keys hkey] at hknown
  exact hknown

/-- A directory is reported as created. -/
theorem Serves.success (h : Serves c side rootDir l s files A B) (hl : Collected side rootDir l)
    (hr : Regular c side rootDir l) (ha : Apart c side l) (hq : q ∈ s.outstanding)
    (hqdir : q.dir = true) :
    Serves c side rootDir l
      { s with
        op := s.op.doneDirectory c q.fileName true
        outstanding := s.outstanding.erase q, reported := s.reported ++ [(q, true)] }
      files A B := by
  have hqh := h.handed_of_outstanding hq
  have hkeep : keeps side (s.reported ++ [(q, true)]) = keeps side s.reported := by
    funext x
    simp [keeps_append]
  have hparents : ∀ x ∈ s.handed, ChildOf side rootDir x.fileName ∨
      created side (s.reported ++ [(q, true)]) x.fileName := fun x hx =>
    (h.parents x hx).imp_right fun hx => created_append.mpr (.inl hx)
  have hsplit : l.filter (keeps side (s.reported ++ [(q, true)])) = A ++ B := hkeep ▸ h.split
  have hacc := account_done true h.account hq
  unfold doneDirectory
  cases hfind : find? c.keys s.op.directories q.fileName with
  | none =>
    refine ⟨h.onSide, h.mode, h.target, h.list, hsplit, h.onList, h.handed, h.cursor, hacc, hparents,
      h.opposite, h.known, fun x hx hp data hdata => ?_⟩
    -- nobody waits for this directory
    have hno : ¬ ChildOf side q.fileName x.fileName := by
      intro hc
      have := h.find_reported hl hr hqh hqdir hx hc
      rw [hfind] at this
      cases this
    rw [h.marks x hx hp data hdata, created_append]
    simp [hno]
  | some _ =>
    refine ⟨h.onSide, h.mode, h.target, h.list, hsplit, h.onList, h.handed, h.cursor, hacc, hparents,
      ?_, ?_, ?_⟩
    · intro x hx
      obtain ⟨y, hy, rfl⟩ := mem_map.mp hx
      have := h.opposite y hy
      split <;> exact this
    · intro x hx d hd hddir hc
      have := h.known x hx d hd hddir hc
      simp only [if_true, find?_modify]
      split
      · simpa using this
      · exact this
    · intro x hx hp data hdata
      have hsame := h.same_iff hl hr ha hqh hqdir hx hp
      simp only [if_true, find?_modify] at hdata
      rw [created_append]
      by_cases hc : ChildOf side q.fileName x.fileName
      · rw [if_pos (hsame.mpr hc)] at hdata
        obtain ⟨old, -, rfl⟩ := Option.map_eq_some_iff.mp hdata
        simp [hc, hqdir]
      · rw [if_neg (fun he => hc (hsame.mp he))] at hdata
        rw [h.marks x hx hp data hdata]
        simp [hc]

/-- A directory that has entries is not both outstanding and reported. -/
theorem Serves.not_reported (h : Serves c side rootDir l s files A B) (hs : Single c side l)
    {a d x : CollectedFile} {b : Bool} (ha : queued a ∈ s.outstanding) (hadir : a.dir = true)
    (hal : a ∈ l) (hxl : x ∈ l) (hc : ChildOf side a.fileName x.fileName) (hd : (d, b) ∈ s.reported)
    (hddir : d.dir = true) (hname : a.fileName = d.fileName) : False := by
  have hcount := hs a hal hadir x hxl hc
  have hsub : A.Sublist l :=
    (sublist_append_left A B).trans (h.split ▸ filter_sublist)
  have hle : s.handed.countP (alike c a.fileName) ≤ l.countP (alike c a.fileName) := by
    rw [h.handed, countP_map]
    exact hsub.countP_le
  rw [h.account.countP_eq, countP_append] at hle
  have h1 : 0 < s.outstanding.countP (alike c a.fileName) := by
    refine countP_pos_iff.mpr ⟨queued a, ha, ?_⟩
    simp [alike, queued, hadir]
  have h2 : 0 < (s.reported.map Prod.fst).countP (alike c a.fileName) := by
    refine countP_pos_iff.mpr ⟨d, mem_map_of_mem hd, ?_⟩
    simp [alike, hddir, hname]
  omega

/-- Nothing below a directory was handed out before the directory is reported. -/
theorem Serves.none_handed (h : Serves c side rootDir l s files A B) (hl : Collected side rootDir l)
    (hs : Single c side l) (hq : q ∈ s.outstanding) (hqdir : q.dir = true) :
    ∀ (n : Nat) (x : CollectedFile), x.fileName.length = n → x ∈ A →
      below side q.fileName x.fileName = false := by
  have hqh := h.handed_of_outstanding hq
  obtain ⟨a, -, hal, rfl⟩ := h.mem_of_handed hqh
  obtain ⟨i, hi⟩ := mem_iff_getElem?.mp hal
  intro n
  induction n using Nat.strongRecOn with
  | _ n ih =>
    intro x hn hx
    rcases h.parents (queued x) (h.handed ▸ mem_map_of_mem hx) with htop | ⟨d, hd, hddir, hc⟩
    · have hnot : below side a.fileName x.fileName = false := hl.not_below_top hi htop
      exact hnot
    · rw [Bool.eq_false_iff]
      intro hb
      have hdh := h.handed_of_reported hd
      rcases hc.below_parent hb with he | hbd
      · -- the directory would be both reported and not
        have hxl := (h.kept (mem_append_left _ hx)).1
        have hname : a.fileName = d.fileName := he
        exact h.not_reported hs hq hqdir hal hxl (hname ▸ hc) hd hddir hname
      · obtain ⟨y, hyA, -, rfl⟩ := h.mem_of_handed hdh
        have hlt : y.fileName.length < n := by
          have : y.fileName.length + 1 < x.fileName.length := hc.length_lt
          omega
        have := ih y.fileName.length hlt y rfl hyA
        rw [show below side (queued a).fileName y.fileName = true from hbd] at this
        cases this

/-- What is on the list below a directory waits for it, so the directory is in
the map when it is reported. -/
theorem Serves.none_waits (h : Serves c side rootDir l s files A B) (hl : Collected side rootDir l)
    (hr : Regular c side rootDir l) (hs : Single c side l) (hq : q ∈ s.outstanding)
    (hqdir : q.dir = true) (hn : find? c.keys s.op.directories q.fileName = none) :
    ∀ x ∈ B, below side q.fileName x.fileName = false := by
  have hqh := h.handed_of_outstanding hq
  intro x hx
  rw [Bool.eq_false_iff]
  intro hb
  obtain ⟨a, -, hal, rfl⟩ := h.mem_of_handed hqh
  obtain ⟨i, hi⟩ := mem_iff_getElem?.mp hal
  obtain ⟨hxl, hxk⟩ := h.kept (mem_append_right _ hx)
  obtain ⟨k, hk⟩ := mem_iff_getElem?.mp hxl
  obtain ⟨j, y, -, hj, hyc, hyx⟩ := hl.child_of_below hi k x hk hb
  have hyk : keeps side s.reported y = true := by
    rcases hyx with rfl | hyx
    · exact hxk
    · exact keeps_of_below hxk hyx
  have hmem : y ∈ A ++ B := h.split ▸ mem_filter.mpr ⟨mem_of_getElem? hj, hyk⟩
  rcases mem_append.mp hmem with hyA | hyB
  · have := h.none_handed hl hs hq hqdir _ y rfl hyA
    rw [show below side (queued a).fileName y.fileName = true from hyc.below] at this
    cases this
  · have := h.find_reported hl hr hqh hqdir hyB hyc
    rw [hn] at this
    cases this

theorem filter_not_below {m : List CollectedFile} {path : UnicodeString}
    (h : ∀ x ∈ m, below side path x.fileName = false) :
    (m.filter fun x => !below side path x.fileName) = m :=
  filter_eq_self.mpr fun x hx => by simp [h x hx]

/-- The current list after a failure: without what lies below the directory,
and with the cursor where it was, behind all that was handed out. -/
theorem Serves.removeBelow (h : Serves c side rootDir l s files A B) {dir : UnicodeString}
    (hqd : ChildOf side dir q.fileName) (hA : ∀ x ∈ A, below side q.fileName x.fileName = false)
    (dirs : List (UnicodeString × DirectoryData)) :
    ∃ files' i v,
      ParallelOperation.removeBelow { s.op with directories := dirs } q.fileName =
        { s.op with
          directories := dirs, fileList := [(rootDir ++ [separator side], files')]
          index := i, version := v } ∧
      files'.map queued =
        (A ++ B.filter fun x => !below side q.fileName x.fileName).map queued ∧
      ((s.op.listIndex = 0 ∧ i = A.length) ∨ (s.op.listIndex = 1 ∧ B = [])) := by
  have hfilter : ∀ m : List CollectedFile, (m.filter fun x => !below side q.fileName x.fileName).map queued =
      (m.map queued).filter fun x => !below side q.fileName x.fileName := by
    intro m
    rw [filter_map]; rfl
  have hAf := filter_not_below hA
  rcases h.cursor with ⟨h0, hi⟩ | ⟨h1, hBnil⟩
  · have hle : A.length ≤ files.length := by
      have := congrArg List.length h.onList
      simp only [length_map, length_append] at this
      omega
    have htake : (files.take A.length).map queued = A.map queued := by
      rw [map_take, h.onList, map_append, take_left' (by simp)]
    have hrm := fun f : CollectedFile => hqd.startsText f.fileName
    simp only [ParallelOperation.removeBelow, h.list, h0, h.onSide, getElem?_cons_zero, hrm, hi]
    refine ⟨_, _, _, rfl, ?_, .inl ⟨trivial, ?_⟩⟩
    · rw [scan_kept, hfilter, h.onList, ← hfilter, filter_append, hAf]
    · rw [scan_index _ _ hle]
      have := congrArg List.length (hfilter (files.take A.length))
      rw [length_map, htake, ← hfilter, hAf, length_map] at this
      exact this
  · have hnone : (s.op.fileList[s.op.listIndex]?) = none := by rw [h.list, h1]; rfl
    refine ⟨files, s.op.index, s.op.version, ?_, ?_, .inr ⟨h1, hBnil⟩⟩
    · simp only [ParallelOperation.removeBelow, hnone]
      rw [← h.list]
    · rw [h.onList, hBnil]; rfl

/-- The entry of a directory that failed is one that nobody on the list asks for
any more. -/
theorem Serves.find_erased (h : Serves c side rootDir l s files A B) (hl : Collected side rootDir l)
    (hr : Regular c side rootDir l) (ha : Apart c side l) (hq : q ∈ s.handed) (hqdir : q.dir = true)
    {x : CollectedFile} (hx : x ∈ B) (hb : below side q.fileName x.fileName = false)
    (hp : ∃ d ∈ l, d.dir = true ∧ ChildOf side d.fileName x.fileName) :
    find? c.keys (erase c.keys s.op.directories q.fileName) (dirPath side x.fileName) =
      find? c.keys s.op.directories (dirPath side x.fileName) := by
  rw [find?_erase, if_neg]
  intro hsame
  have hc := (h.same_iff hl hr ha hq hqdir hx hp).mp hsame
  rw [hc.below] at hb
  cases hb

/-- A directory is reported as failed: what lies below it is off the list. -/
theorem Serves.failure (h : Serves c side rootDir l s files A B) (hl : Collected side rootDir l)
    (hr : Regular c side rootDir l) (hs : Single c side l) (hq : q ∈ s.outstanding)
    (hqdir : q.dir = true) :
    ∃ files', Serves c side rootDir l
      { s with
        op := s.op.doneDirectory c q.fileName false
        outstanding := s.outstanding.erase q, reported := s.reported ++ [(q, false)] }
      files' A (B.filter fun x => !below side q.fileName x.fileName) := by
  have hqh := h.handed_of_outstanding hq
  have hA : ∀ x ∈ A, below side q.fileName x.fileName = false := fun x hx =>
    h.none_handed hl hs hq hqdir _ x rfl hx
  have hsplit : l.filter (keeps side (s.reported ++ [(q, false)])) =
      A ++ B.filter fun x => !below side q.fileName x.fileName := by
    rw [keeps_failed hqdir, ← filter_filter, h.split, filter_append, filter_not_below hA]
  have hcreated : ∀ path,
      created side (s.reported ++ [(q, false)]) path ↔ created side s.reported path := by
    intro path
    simp [created_append]
  have hparents : ∀ x ∈ s.handed, ChildOf side rootDir x.fileName ∨
      created side (s.reported ++ [(q, false)]) x.fileName := fun x hx => by
    rw [hcreated]; exact h.parents x hx
  have hacc := account_done false h.account hq
  unfold doneDirectory
  cases hfind : find? c.keys s.op.directories q.fileName with
  | none =>
    rw [filter_not_below (h.none_waits hl hr hs hq hqdir hfind)] at hsplit ⊢
    exact ⟨files, h.onSide, h.mode, h.target, h.list, hsplit, h.onList, h.handed, h.cursor, hacc,
      hparents, h.opposite, h.known, fun x hx hp data hd => by
        rw [hcreated]; exact h.marks x hx hp data hd⟩
  | some _ =>
    obtain ⟨a, -, hal, hqa⟩ := h.mem_of_handed hqh
    obtain ⟨dir, had⟩ := hl.childOf hal
    have hqd : ChildOf side dir q.fileName := hqa ▸ had
    obtain ⟨files', j, v, hop, hfiles, hcur⟩ := h.removeBelow hqd hA (erase c.keys s.op.directories q.fileName)
    simp only [Bool.false_eq_true, if_false, hop]
    refine ⟨files', h.onSide, h.mode, h.target, rfl, hsplit, hfiles, h.handed, ?_, hacc, hparents, ?_,
      ?_, ?_⟩
    · rcases hcur with hc | ⟨h1, hB⟩
      · exact .inl hc
      · exact .inr ⟨h1, by rw [hB]; rfl⟩
    · exact fun x hx => h.opposite x (mem_of_mem_filter hx)
    · intro x hx d hd hddir hc
      obtain ⟨hxB, hxb⟩ := mem_filter.mp hx
      obtain ⟨y, -, hyl, rfl⟩ := h.mem_of_handed hd
      rw [h.find_erased hl hr hs.apart hqh hqdir hxB (by simpa using hxb) ⟨y, hyl, hddir, hc⟩]
      exact h.known x hxB (queued y) hd hddir hc
    · intro x hx hp data hdata
      obtain ⟨hxB, hxb⟩ := mem_filter.mp hx
      rw [h.find_erased hl hr hs.apart hqh hqdir hxB (by simpa using hxb) hp] at hdata
      rw [hcreated]
      exact h.marks x hxB hp data hdata

theorem Serves.step {t : Transfer} {a : Action} (h : Serves c side rootDir l s files A B)
    (hl : Collected side rootDir l) (hr : Regular c side rootDir l) (ha : Apart c side l)
    (hs : ∀ file, a = .done file false → Single c side l) (ht : Serving.step c s a = some t) :
    ∃ files' A' B', Serves c side rootDir l t files' A' B' := by
  cases a with
  | getNext term limit =>
    cases ht
    exact h.getNext hl hr term limit
  | done q b =>
    simp only [Serving.step, Option.ite_none_right_eq_some, Option.some.injEq] at ht
    obtain ⟨hq, rfl⟩ := ht
    unfold Transfer.done
    by_cases hdir : q.dir = true
    · simp only [hdir, if_true]
      cases b with
      | true => exact ⟨_, _, _, h.success hl hr ha hq hdir⟩
      | false =>
        obtain ⟨files', hf⟩ := h.failure hl hr (hs q rfl) hq hdir
        exact ⟨_, _, _, hf⟩
    · simp only [hdir]
      exact ⟨_, _, _, h.noted hq b (by simpa using hdir)⟩

theorem start_serves (c : Collation) (side : Side) (rootDir : UnicodeString)
    (l : List CollectedFile) {targetDir : UnicodeString} (ht : targetDir ≠ []) (copyParam : CopyParam) :
    Serves c side rootDir l (start side rootDir l targetDir copyParam) l [] l where
  onSide := rfl
  mode := rfl
  target := ht
  list := rfl
  split := filter_eq_self.mpr fun _ _ => rfl
  onList := rfl
  handed := rfl
  cursor := .inl ⟨rfl, rfl⟩
  account := .refl _
  parents := by simp [start]
  opposite := by simp [start, init]
  known := by simp [start]
  marks := by simp [start, init]

/-! ## Every run -/

/-- Entries are handed out in the order of the list `l`, each once and after
its directory was created; a call tells the end only when all were handed out,
and it makes the client wait only for a directory that is on its way. -/
structure Delivers (c : Collation) (side : Side) (rootDir : UnicodeString) (l : List CollectedFile)
    (s : Transfer) : Prop where
  order : s.handed <+: l.map queued
  parents : ∀ x ∈ s.handed, ChildOf side rootDir x.fileName ∨ created side s.reported x.fileName
  next : ∀ t limit, ∃ out, (s.op.getNext c t limit).1 = .ok out ∧
    ((out.result = -1 ∧ s.handed = l.map queued) ∨
    (out.result = 0 ∧ ∃ e, s.handed ++ [queued e] <+: l.map queued ∧
      ∃ d ∈ s.outstanding, d.dir = true ∧ ChildOf side d.fileName e.fileName) ∨
    (out.result = 1 ∧ s.handed ++ [Handout.file out] <+: l.map queued))

theorem Serves.delivers (h : Serves c side rootDir l s files A B) (hl : Collected side rootDir l)
    (hr : Regular c side rootDir l) :
    Delivers c side rootDir (l.filter (keeps side s.reported)) s where
  order := by rw [h.handed, h.split, map_append]; exact prefix_append _ _
  parents := h.parents
  next := by
    intro t limit
    obtain ⟨out, op', hg, hcases⟩ := h.getNext_cases hl hr t limit
    refine ⟨out, by rw [hg], ?_⟩
    rcases hcases with ⟨hB, hres, -⟩ | ⟨e, B', hB, ⟨hres, hwait, -⟩ | ⟨hres, hfile, -, -⟩⟩
    · exact .inl ⟨hres, by rw [h.handed, h.split, hB, append_nil]⟩
    · refine .inr (.inl ⟨hres, e, ?_, hwait⟩)
      rw [h.handed, h.split, hB, map_append]
      exact ⟨B'.map queued, by simp⟩
    · refine .inr (.inr ⟨hres, ?_⟩)
      rw [hfile, h.handed, h.split, hB, map_append]
      exact ⟨B'.map queued, by simp⟩

def Action.succeeds : Action → Prop
  | .getNext _ _ => True
  | .done _ success => success = true

instance : DecidablePred Action.succeeds
  | .getNext _ _ => .isTrue trivial
  | .done _ success => inferInstanceAs (Decidable (success = true))

/-- A remote list is delivered in full by every interleaving of calls that
report success, if there is a target directory, the code recognises the root
and its directories, and no two of them compare equal. -/
theorem list_run (c : Collation) {rootDir targetDir : UnicodeString} {l : List CollectedFile}
    (copyParam : CopyParam) (hl : Collected .osRemote rootDir l) (ht : targetDir ≠ [])
    (hr : Regular c .osRemote rootDir l) (ha : Apart c .osRemote l) {s : Transfer}
    (h : Reaches (step c) (fun _ a => a.succeeds) (start .osRemote rootDir l targetDir copyParam) s) :
    Delivers c .osRemote rootDir l s := by
  have hinv : (∃ files A B, Serves c .osRemote rootDir l s files A B) ∧ ∀ r ∈ s.reported, r.2 = true := by
    refine h.invariant (P := fun s => (∃ files A B, Serves c .osRemote rootDir l s files A B) ∧
      ∀ r ∈ s.reported, r.2 = true)
      ⟨⟨_, _, _, start_serves c .osRemote rootDir l ht copyParam⟩, by simp [start]⟩ ?_
    intro s a t ⟨⟨files, A, B, hs⟩, hrep⟩ hok hstep
    refine ⟨hs.step hl hr ha (fun file he => ?_) hstep, ?_⟩
    · rw [he] at hok
      cases hok
    · cases a with
      | getNext term limit =>
        cases hstep
        have hsame : (s.getNext c term limit).reported = s.reported := by
          unfold Transfer.getNext
          split
          · rfl
          · split <;> rfl
        rw [hsame]
        exact hrep
      | done q b =>
        simp only [step, Option.ite_none_right_eq_some, Option.some.injEq] at hstep
        obtain ⟨-, rfl⟩ := hstep
        intro r hr
        rcases List.mem_append.mp hr with hr | hr
        · exact hrep r hr
        · rw [List.mem_singleton.mp hr]; exact hok
  obtain ⟨⟨files, A, B, hs⟩, hrep⟩ := hinv
  have hall : l.filter (keeps .osRemote s.reported) = l := by
    refine List.filter_eq_self.mpr fun x _ => keeps_iff.mpr fun d hd => ?_
    cases hrep _ hd
  exact hall ▸ hs.delivers hl hr

/-- A directory with one file in it, and another file. -/
def sampleList : List CollectedFile :=
  [{ fileName := wstr "/r/d", dir := true }, { fileName := wstr "/r/d/f", dir := false },
    { fileName := wstr "/r/g", dir := false }]

theorem sampleList_collected : Collected .osRemote (wstr "/r") sampleList := by
  intro k e he
  match k with
  | 0 =>
    cases he
    exact .inl ⟨wstr "d", by decide, rfl⟩
  | 1 =>
    cases he
    exact .inr ⟨0, _, by decide, rfl, rfl, wstr "f", by decide, rfl⟩
  | 2 =>
    cases he
    exact .inl ⟨wstr "g", by decide, rfl⟩
  | k + 3 => cases he

theorem sampleList_regular : Regular .ofDecEq .osRemote (wstr "/r") sampleList :=
  regular_of_plain .ofDecEq sampleList_collected (by decide) (by decide)

theorem sampleList_single : Single .ofDecEq .osRemote sampleList := by
  have h : ∀ d ∈ sampleList, d.dir = true →
      sampleList.countP (alike .ofDecEq d.fileName) ≤ 1 := by decide
  exact fun d hd hdir _ _ _ => h d hd hdir

theorem list_run_sample : ∃ s, Reaches (step .ofDecEq) (fun _ a => a.succeeds)
      (start .osRemote (wstr "/r") sampleList (wstr "C:\\d") {}) s ∧
    s.handed = sampleList ∧ Delivers .ofDecEq .osRemote (wstr "/r") sampleList s := by
  obtain ⟨s, hs, hh⟩ := exists_reaches (f := Transfer.handed)
    (show (runs (step .ofDecEq) (fun _ a => a.succeeds)
        (start .osRemote (wstr "/r") sampleList (wstr "C:\\d") {})
        [.getNext ⟨fun _ name _ _ => name⟩ 1, .done { fileName := wstr "/r/d", dir := true } true,
          .getNext ⟨fun _ name _ _ => name⟩ 1, .getNext ⟨fun _ name _ _ => name⟩ 1]).map _ =
      some sampleList by decide +kernel)
  exact ⟨s, hs, hh, list_run .ofDecEq {} sampleList_collected (by decide) sampleList_regular
    sampleList_single.apart hs⟩

/-- The list of `/` with the file `/f`: the very first call raises. -/
theorem list_root_not_delivered :
    Collected .osRemote [] [{ fileName := wstr "/f", dir := false }] ∧
    ¬ ∀ s, Reaches (step .ofDecEq) (fun _ a => a.succeeds)
        (start .osRemote [] [{ fileName := wstr "/f", dir := false }] (wstr "C:\\d") {}) s →
      Delivers .ofDecEq .osRemote [] [{ fileName := wstr "/f", dir := false }] s := by
  constructor
  · intro k e he
    match k with
    | 0 =>
      cases he
      exact .inl ⟨wstr "f", by decide, rfl⟩
    | k + 1 => cases he
  · intro h
    obtain ⟨out, hout, -⟩ := (h _ .refl).next ⟨fun _ name _ _ => name⟩ 1
    have hraise : ((start .osRemote [] [{ fileName := wstr "/f", dir := false }]
        (wstr "C:\\d") {}).op.getNext .ofDecEq ⟨fun _ name _ _ => name⟩ 1).1 =
        .error (.invalidOperation "Parent path not known") := by decide +kernel
    rw [hraise] at hout
    cases hout

/-- What a failed directory is to do: it takes exactly what lies below it off
the list, the cursor stays on the entry it was on or at the end, and all that
is left is delivered. -/
structure Contained (c : Collation) (side : Side) (rootDir : UnicodeString) (l : List CollectedFile)
    (s : Transfer) : Prop where
  list : ∃ files, s.op.fileList = [(rootDir ++ [separator side], files)] ∧
    files.map queued = (l.filter (keeps side s.reported)).map queued
  cursor : (s.op.listIndex = 0 ∧ s.op.index = s.handed.length) ∨
    (s.op.listIndex = 1 ∧ s.handed = (l.filter (keeps side s.reported)).map queued)
  delivers : Delivers c side rootDir (l.filter (keeps side s.reported)) s

theorem Serves.contained (h : Serves c side rootDir l s files A B) (hl : Collected side rootDir l)
    (hr : Regular c side rootDir l) : Contained c side rootDir l s where
  list := ⟨files, h.list, by rw [h.onList, h.split]⟩
  cursor := by
    rcases h.cursor with ⟨h0, hi⟩ | ⟨h1, hB⟩
    · exact .inl ⟨h0, by rw [hi, h.handed, length_map]⟩
    · exact .inr ⟨h1, by rw [h.handed, h.split, hB, append_nil]⟩
  delivers := h.delivers hl hr

/-- A failed directory takes only its own entries away, in every run over a
list of either side that has a target directory, whose root and directories
the code recognises and in which no other directory compares equal to one
with entries. -/
theorem failure_run (c : Collation) {side : Side} {rootDir targetDir : UnicodeString}
    {l : List CollectedFile} (copyParam : CopyParam) (hl : Collected side rootDir l)
    (ht : targetDir ≠ []) (hr : Regular c side rootDir l) (hs : Single c side l) {s : Transfer}
    (h : Reaches (step c) (fun _ _ => True) (start side rootDir l targetDir copyParam) s) :
    Contained c side rootDir l s := by
  have hinv : ∃ files A B, Serves c side rootDir l s files A B := by
    refine h.invariant (P := fun s => ∃ files A B, Serves c side rootDir l s files A B)
      ⟨_, _, _, start_serves c side rootDir l ht copyParam⟩ ?_
    intro s a t ⟨files, A, B, hserves⟩ _ hstep
    exact hserves.step hl hr hs.apart (fun _ _ => hs) hstep
  obtain ⟨files, A, B, hserves⟩ := hinv
  exact hserves.contained hl hr

theorem failure_run_sample : ∃ s, Reaches (step .ofDecEq) (fun _ _ => True)
      (start .osRemote (wstr "/r") sampleList (wstr "C:\\d") {}) s ∧
    s.handed.map CollectedFile.fileName = [wstr "/r/d", wstr "/r/g"] ∧
    Contained .ofDecEq .osRemote (wstr "/r") sampleList s := by
  obtain ⟨s, hs, hh⟩ := exists_reaches (f := fun s => s.handed.map CollectedFile.fileName)
    (show (runs (step .ofDecEq) (fun _ _ => True)
        (start .osRemote (wstr "/r") sampleList (wstr "C:\\d") {})
        [.getNext ⟨fun _ name _ _ => name⟩ 1, .done { fileName := wstr "/r/d", dir := true } false,
          .getNext ⟨fun _ name _ _ => name⟩ 1]).map _ = some [wstr "/r/d", wstr "/r/g"] by
      decide +kernel)
  exact ⟨s, hs, hh, failure_run .ofDecEq {} sampleList_collected (by decide) sampleList_regular
    sampleList_single hs⟩

/-- A directory whose name ends with a backslash and a file in it. -/
def backslashList : List CollectedFile :=
  [{ fileName := wstr "/r/d\\", dir := true }, { fileName := wstr "/r/d\\/f", dir := false }]

/-- The failed directory is stored without its backslash and reported with it:
`Done` does not find it, and nothing is taken off the list. -/
theorem failure_backslash_not_contained : Collected .osRemote (wstr "/r") backslashList ∧
    ∃ s, Reaches (step .ofDecEq) (fun _ _ => True)
      (start .osRemote (wstr "/r") backslashList (wstr "C:\\d") {}) s ∧
    ¬ Contained .ofDecEq .osRemote (wstr "/r") backslashList s := by
  constructor
  · intro k e he
    match k with
    | 0 =>
      cases he
      exact .inl ⟨wstr "d\\", by decide, rfl⟩
    | 1 =>
      cases he
      exact .inr ⟨0, _, by decide, rfl, rfl, wstr "f", by decide, rfl⟩
    | k + 2 => cases he
  · obtain ⟨s, hs, hv⟩ := exists_reaches
      (f := fun s => (s.op.fileList.map fun x => x.2.length,
        (backslashList.filter (keeps .osRemote s.reported)).length))
      (show (runs (step .ofDecEq) (fun _ _ => True)
          (start .osRemote (wstr "/r") backslashList (wstr "C:\\d") {})
          [.getNext ⟨fun _ name _ _ => name⟩ 1,
            .done { fileName := wstr "/r/d\\", dir := true } false]).map _ = some ([2], 1) by
        decide +kernel)
    refine ⟨s, hs, fun h => ?_⟩
    obtain ⟨files, hl, hm⟩ := h.list
    have hlen := congrArg List.length hm
    simp only [Prod.mk.injEq, hl, List.map_cons, List.map_nil, List.cons.injEq, and_true] at hv
    rw [List.length_map, List.length_map] at hlen
    omega

end NetBox.Parallel.Serving
