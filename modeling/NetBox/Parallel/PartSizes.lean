import NetBox.Parallel.MergeLoop

/-! # The size of merged parts

Before a part is merged the loop compares what the merging client has
transferred itself with the size of its own part. It says nothing about parts
of other clients, which are merged unseen.
-/
namespace NetBox.Parallel.Merge
open Base.Text Lib.Run Parallel.Operation List

variable {Client : Type} [DecidableEq Client] {rootDir name : UnicodeString} {size : Int}
  {c : Client} {s : System Client} {m : Merger} {i : Nat}

/-- Part `i` has a known size and `Done` was called for it with another one. -/
def Wrong (s : System Client) (i : Nat) (n : Int) (p : CopyParam) : Prop :=
  s.parts[i]? = some p ∧ 0 ≤ p.partSize ∧ s.reported i = some n ∧ n ≠ p.partSize

/-- `Done` has raised the size of part `i`. -/
def Raised (s : System Client) (i : Nat) (n partSize : Int) : Prop :=
  ∃ partName, (i, DoneError.inconsistentSize partName n partSize) ∈ s.raised

/-- A part of a wrong size is reported only when it is the next one to be
merged and nobody is merging, and nothing is reported after an exception. -/
def Checked (s : System Client) : Action Client → Prop
  | .done c true n _ => s.raised = [] ∧ ∀ job ∈ (s.activity c).job?,
      job.copyParam.partSize < 0 ∨ n = job.copyParam.partSize ∨
        (s.op.parallelFileMerging = false ∧
          partIndex s.op job.copyParam = some s.op.parallelFileMerged)
  | _ => True

instance (s : System Client) : DecidablePred (Checked s)
  | .done _ true _ _ => instDecidableAnd
  | .done _ false _ _ | .getNext _ _ _ | .merge _ _ | .relock _ _ => .isTrue trivial

structure Sized (s : System Client) : Prop where
  merged : ∀ i < s.op.parallelFileMerged, ∀ n p, ¬ Wrong s i n p
  wrong : ∀ i n p, Wrong s i n p →
    (∃ c m, s.activity c = .merging m ∧ m.index = i) ∨ Raised s i n p.partSize
  stopped : s.raised ≠ [] → s.op.parallelFileMerging = false
  cancelled : s.raised ≠ [] → s.cancel = true

omit [DecidableEq Client] in
/-- When a client inside the loop has transferred what it should, no part of a
wrong size was reported. -/
theorem Sized.none_wrong (h : Sized s) (hi : Inv rootDir name size s)
    (hc : (s.activity c).merger? = some m) (hm : s.activity c = .merging m → m.inconsistent = false) :
    ∀ i n p, ¬ Wrong s i n p := by
  intro i n p hw
  have hflag := hi.merges.worker.flag.mpr ⟨c, m, hc⟩
  rcases h.wrong i n p hw with ⟨c', m', hc', rfl⟩ | ⟨_, hr⟩
  · obtain rfl := hi.merges.worker.alone c' c m' m (by rw [hc']; rfl) hc
    obtain rfl : m' = m := by rw [hc'] at hc; exact Option.some.inj hc
    obtain ⟨hp, hpos, hn, hne⟩ := hw
    rw [hi.clients.parts_of_inside hi.handed hc, Option.some.injEq] at hp
    rw [(hi.clients.inside c' m' hc).2.1, Option.some.injEq] at hn
    have := hm hc'
    subst hp hn
    simp [Merger.inconsistent, hpos, hne] at this
  · have := h.stopped (ne_nil_of_mem hr)
    exact absurd (hflag.symm.trans this) (by simp)

/-- Where no wrong size was reported the loop may go on in any way. -/
theorem Sized.mergeLoop (h : ∀ i n p, ¬ Wrong s i n p) (hr : s.raised = []) (works : Bool) :
    Sized (s.mergeLoop c m works) := by
  have hkeep : (s.mergeLoop c m works).parts = s.parts ∧
      (s.mergeLoop c m works).reported = s.reported := by
    unfold System.mergeLoop
    split
    · exact ⟨rfl, rfl⟩
    · split
      · split <;> exact ⟨rfl, rfl⟩
      · exact ⟨rfl, rfl⟩
  have hnone : ∀ i n p, ¬ Wrong (s.mergeLoop c m works) i n p := by
    intro i n p hw
    exact h i n p ⟨hkeep.1 ▸ hw.1, hw.2.1, hkeep.2 ▸ hw.2.2.1, hw.2.2.2⟩
  refine ⟨fun i _ => hnone i, fun i n p hw => absurd hw (hnone i n p), ?_, ?_⟩ <;>
  · unfold System.mergeLoop
    split
    · exact fun hne => absurd hr hne
    · split
      · split
        · exact fun hne => absurd hr hne
        · exact fun _ => rfl
      · exact fun hne => absurd hr hne

/-- The client that leaves by an exception is the only one that could have
been about to merge a part of a wrong size. -/
theorem Sized.raise (h : Sized s) (hi : Inv rootDir name size s)
    (hc : (s.activity c).merger? = some m) {e : DoneError}
    (he : ∀ n p, Wrong s m.index n p → ∃ partName, e = .inconsistentSize partName n p.partSize) :
    Sized (s.raise c m e) where
  merged := h.merged
  wrong := by
    intro i n p hw
    refine .inr ?_
    rcases h.wrong i n p hw with ⟨c', m', hc', rfl⟩ | ⟨partName, hr⟩
    · obtain rfl := hi.merges.worker.alone c' c m' m (by rw [hc']; rfl) hc
      obtain rfl : m' = m := by rw [hc'] at hc; exact Option.some.inj hc
      obtain ⟨partName, rfl⟩ := he n p hw
      exact ⟨partName, by simp [System.raise]⟩
    · exact ⟨partName, by simp [System.raise, hr]⟩
  stopped := fun _ => rfl
  cancelled := fun _ => rfl

theorem Sized.merge (h : Sized s) (hi : Inv rootDir name size s) (hc : s.activity c = .merging m)
    (works : Bool) : Sized (s.merge c m works) := by
  have hin : (s.activity c).merger? = some m := by rw [hc]; rfl
  unfold System.merge
  by_cases hbad : m.inconsistent = true
  · simp only [hbad, if_true]
    refine h.raise hi hin fun n p ⟨hp, _, hn, _⟩ => ?_
    rw [hi.clients.parts_of_inside hi.handed hin, Option.some.injEq] at hp
    rw [(hi.clients.inside c m hin).2.1, Option.some.injEq] at hn
    exact ⟨_, by rw [hp, hn]⟩
  · have hgood : m.inconsistent = false := by simpa using hbad
    have hnone := h.none_wrong hi hin fun _ => hgood
    have hflag := hi.merges.worker.flag.mpr ⟨c, m, hin⟩
    have hr : s.raised = [] := by
      by_contra hne
      exact absurd (hflag.symm.trans (h.stopped hne)) (by simp)
    simp only [hgood, Bool.false_eq_true, if_false]
    cases works with
    | true => exact ⟨fun i _ => hnone i, fun i n p hw => absurd hw (hnone i n p),
        fun hne => absurd hr hne, fun hne => absurd hr hne⟩
    | false => exact h.raise hi hin fun n p hw => absurd hw (hnone _ n p)

theorem Sized.outside (h : Sized s) (hc : (s.activity c).merger? = none) {a : Activity} {b : Bool}
    (hb : s.raised ≠ [] → b = true) :
    Sized { s with activity := Function.update s.activity c a, cancel := b } where
  merged := h.merged
  wrong := by
    intro i n p hw
    rcases h.wrong i n p hw with ⟨c', m, hm, hi⟩ | hr
    · have hne : c' ≠ c := by
        rintro rfl
        rw [hm] at hc
        cases hc
      exact .inl ⟨c', m, by simpa [Function.update_of_ne hne] using hm, hi⟩
    · exact .inr hr
  stopped := h.stopped
  cancelled := hb

omit [DecidableEq Client] in
theorem Wrong.of_report {i k : Nat} {n n' : Int} {p : CopyParam} (h : Wrong (s.report i n) k n' p) :
    (k = i ∧ s.parts[i]? = some p ∧ 0 ≤ p.partSize ∧ n ≠ p.partSize) ∨ Wrong s k n' p := by
  obtain ⟨hp, hpos, hn, hne⟩ := h
  simp only [System.report, Function.update_apply] at hn
  split at hn
  · rename_i he
    cases hn
    exact .inl ⟨he, he ▸ hp, hpos, hne⟩
  · exact .inr ⟨hp, hpos, hn, hne⟩

theorem Sized.report (h : Sized s) (hc : (s.activity c).merger? = none) {n : Int}
    (hright : ∀ k n' p, Wrong (s.report i n) k n' p → Wrong s k n' p) :
    Sized { s.report i n with
      activity := Function.update s.activity c .idle, returned := s.returned ++ [i] } := by
  have ho := h.outside (c := c) (a := .idle) hc h.cancelled
  exact ⟨fun k hk n' p hw => ho.merged k hk n' p (hright k n' p hw),
    fun k n' p hw => ho.wrong k n' p (hright k n' p hw), ho.stopped, ho.cancelled⟩

omit [DecidableEq Client] in
theorem Sized.none_wrong_of_free (h : Sized s) (hw : Worker s.activity s.op.parallelFileMerging)
    (hf : s.op.parallelFileMerging = false) (hr : s.raised = []) : ∀ i n p, ¬ Wrong s i n p := by
  intro i n p hwrong
  rcases h.wrong i n p hwrong with ⟨c, m, hc, -⟩ | ⟨_, hm⟩
  · exact ((hf ▸ hw).nobody c m).1 hc
  · rw [hr] at hm; cases hm

/-- The next part is reported with a wrong size: its client is about to raise. -/
theorem Inv.enter_wrong (hi : Inv rootDir name size s) {job : Job}
    (hidx : partIndex s.op job.copyParam = some s.op.parallelFileMerged)
    (hnone : ∀ i n p, ¬ Wrong s i n p) (hr : s.raised = []) {n : Int}
    (hm : m.index = s.op.parallelFileMerged) (works : Bool) :
    Sized (((s.report s.op.parallelFileMerged n).enter c m).mergeLoop c m works) := by
  have hlt := hi.handed.partIndex_lt hidx
  have hcan : canMerge ((s.report s.op.parallelFileMerged n).enter c m).op = true := by
    rw [canMerge_iff]
    have hlen : s.op.parallelFileMerged < s.op.parallelFileDones.length := hi.handed.dones ▸ hlt
    exact ⟨hi.handed.count ▸ hlt, by simp [System.enter, System.report, hlen]⟩
  unfold System.mergeLoop
  rw [if_pos hcan]
  have hwrong : ∀ k n' p, Wrong (s.report s.op.parallelFileMerged n) k n' p →
      k = s.op.parallelFileMerged := by
    intro k n' p hw
    rcases hw.of_report with ⟨hk, -⟩ | hold
    · exact hk
    · exact absurd hold (hnone k n' p)
  refine ⟨fun k hk n' p hw => ?_, fun k n' p hw => .inl ⟨c, m, ?_, ?_⟩, ?_, ?_⟩
  · exact absurd (hwrong k n' p hw) (Nat.ne_of_lt hk)
  · simp
  · rw [hm, hwrong k n' p hw]
  · exact fun hne => absurd hr hne
  · exact fun hne => absurd hr hne

theorem Sized.done (h : Sized s) (hi : Inv rootDir name size s) {job : Job}
    (hc : s.activity c = .transferring job) {success : Bool} {n : Int} {works : Bool}
    (hok : Checked s (.done c success n works)) : Sized (s.done c job success n works) := by
  have hout : (s.activity c).merger? = none := by rw [hc]; rfl
  have hjob : (s.activity c).job? = some job := by rw [hc]; rfl
  unfold System.done
  cases success with
  | false => exact h.outside hout fun _ => rfl
  | true =>
    rw [if_neg (by simp), if_neg (by simp [hi.handed.shape.side])]
    split
    · exact h.outside hout h.cancelled
    · rename_i i hidx
      obtain ⟨hr, hsize⟩ := hok
      have hpart := hi.clients.jobs.part hi.handed hjob hidx
      -- the part has the right size, or it is the next one and nobody is merging
      have hcases : (∀ k n' p, Wrong (s.report i n) k n' p → Wrong s k n' p) ∨
          (s.op.parallelFileMerging = false ∧ partIndex s.op job.copyParam = some s.op.parallelFileMerged) := by
        refine or_iff_not_imp_right.mpr fun hnot k n' p hw => ?_
        rcases hw.of_report with ⟨rfl, hp, hpos, hne⟩ | hold
        · obtain rfl : job.copyParam = p := Option.some.inj (hpart.symm.trans hp)
          rcases hsize job hjob with hneg | he | hnext
          · omega
          · exact absurd he hne
          · exact absurd hnext hnot
        · exact hold
      by_cases hf : s.op.parallelFileMerging = true
      · rw [if_pos hf]
        rcases hcases with hright | ⟨hf', -⟩
        · exact h.report hout hright
        · exact absurd (hf.symm.trans hf') (by simp)
      · rw [if_neg hf]
        have hnone := h.none_wrong_of_free hi.merges.worker (by simpa using hf) hr
        rcases hcases with hright | ⟨-, hnext⟩
        · exact Sized.mergeLoop (s := (s.report i n).enter c _)
            (fun k n' p hw => hnone k n' p (hright k n' p hw)) hr works
        · obtain rfl : i = s.op.parallelFileMerged := Option.some.inj (hidx.symm.trans hnext)
          exact hi.enter_wrong hnext hnone hr rfl works

theorem Sized.getNext (h : Sized s) (hi : Inv rootDir name size s) (hn : slash ∉ name)
    (hc : s.activity c = .idle) (col : Collation) (t : Terminal) {limit : Int} (h1 : 1 ≤ limit)
    (h2 : limit ≤ size) : Sized (s.getNext col c t limit) := by
  have hout : (s.activity c).merger? = none := by rw [hc]; rfl
  unfold System.getNext
  rcases hi.handed.shape.getNext hn col t h1 h2 with ⟨r, b, hr, hnone⟩ |
    ⟨out, part, op', hr, hres, hpart, -, -, hg, -⟩
  · rw [hr]
    have hsame : Sized { s with op := { s.op with probablyEmpty := b } } :=
      ⟨h.merged, h.wrong, h.stopped, h.cancelled⟩
    cases r with
    | error e => exact hsame
    | ok out =>
      dsimp only
      split
      · rename_i hpos
        rw [(hnone out rfl hpos).1, Option.toList_none, append_nil]
        exact hsame.outside hout hsame.cancelled
      · exact hsame
  · rw [hr]
    simp only [hres, hpart, Int.zero_lt_one, if_true, Option.toList_some]
    -- the new part was not reported, so it is not one of a wrong size
    have hold : ∀ i n p, (s.parts ++ [part])[i]? = some p → s.reported i = some n →
        s.parts[i]? = some p := by
      intro i n p hp hn
      have hlt := (List.getElem?_eq_some_iff.mp ((hi.clients.marked i).mpr (by simp [hn]))).1
      rwa [getElem?_append_left (hi.handed.dones ▸ hlt)] at hp
    have ho := h.outside (a := .transferring ⟨out.fileName, out.targetDir, part⟩) hout h.cancelled
    refine ⟨fun i hi' n p hw => ?_, fun i n p hw => ?_, fun hne => ?_, ho.cancelled⟩
    · exact ho.merged i (hg.merged ▸ hi') n p ⟨hold i n p hw.1 hw.2.2.1, hw.2⟩
    · exact ho.wrong i n p ⟨hold i n p hw.1 hw.2.2.1, hw.2⟩
    · exact hg.merging ▸ ho.stopped hne

theorem Sized.step {col : Collation} {t : System Client} {a : Action Client} (h : Sized s)
    (hi : Inv rootDir name size s) (hn : slash ∉ name) (hok : Checked s a)
    (hs : Merge.step col s a = some t) : Sized t := by
  obtain ⟨c, term, limit, -, hc, h1, h2, rfl⟩ | ⟨c, job, success, n, works, rfl, hc, rfl⟩ |
    ⟨c, m, works, -, hc, rfl⟩ | ⟨c, m, works, -, hc, rfl⟩ := step_cases hs
  · exact h.getNext hi hn hc col term h1 (hi.handed.shape.fileSize ▸ h2)
  · exact h.done hi hc hok
  · exact h.merge hi hc works
  · have hin : (s.activity c).merger? = some m := by rw [hc]; rfl
    have hr : s.raised = [] := by
      by_contra hne
      have hf := hi.merges.worker.flag.mpr ⟨c, m, hin⟩
      exact absurd (hf.symm.trans (h.stopped hne)) (by simp)
    exact Sized.mergeLoop (h.none_wrong hi hin fun hm => by rw [hc] at hm; cases hm) hr works

/-- What the size check is for: parts that were merged have the size they
should, and a part of another size stops the transfer before the target is
complete. -/
structure SizesChecked (col : Collation) (s : System Client) : Prop where
  merged : ∀ i p, i ∈ s.localOps.filterMap LocalOp.part? → s.parts[i]? = some p → 0 ≤ p.partSize →
    s.reported i = some p.partSize
  wrong : ∀ i n p, Wrong s i n p → s.completed = false ∧
    ((∃ c, ∀ works, ∃ t, step col s (.merge c works) = some t ∧ Raised t i n p.partSize ∧
      t.cancel = true) ∨ Raised s i n p.partSize ∧ s.cancel = true)

theorem Sized.checked (h : Sized s) (hi : Inv rootDir name size s)
    (col : Collation) : SizesChecked col s where
  merged := by
    intro i p hm hp hpos
    rw [hi.merges.order, mem_range] at hm
    obtain ⟨n, hn⟩ := Option.isSome_iff_exists.mp ((hi.clients.marked i).mp (hi.merges.prior i hm))
    by_cases he : n = p.partSize
    · rw [hn, he]
    · exact absurd ⟨hp, hpos, hn, he⟩ (h.merged i hm n p)
  wrong := by
    intro i n p hw
    refine ⟨?_, ?_⟩
    · rw [Bool.eq_false_iff]
      intro hc
      have hlt := (List.getElem?_eq_some_iff.mp hw.1).1
      rw [← hi.handed.count, ← ((isComplete_iff _).mp (hi.merges.complete hc)).1] at hlt
      exact h.merged i hlt n p hw
    · rcases h.wrong i n p hw with ⟨c, m, hc, rfl⟩ | hr
      · refine .inl ⟨c, fun works => ?_⟩
        have hin : (s.activity c).merger? = some m := by rw [hc]; rfl
        obtain ⟨hp, hpos, hn, hne⟩ := hw
        rw [hi.clients.parts_of_inside hi.handed hin, Option.some.injEq] at hp
        rw [(hi.clients.inside c m hin).2.1, Option.some.injEq] at hn
        subst hp hn
        have hbad : m.inconsistent = true := by simp [Merger.inconsistent, hpos, hne]
        simp only [Merge.step, hc, System.merge, hbad, if_true]
        exact ⟨_, rfl, ⟨_, mem_append_right _ (mem_singleton_self _)⟩, rfl⟩
      · obtain ⟨_, hmem⟩ := hr
        exact .inr ⟨⟨_, hmem⟩, h.cancelled (ne_nil_of_mem hmem)⟩

omit [DecidableEq Client] in
theorem start_sized (rootDir name targetDir : UnicodeString) (object : Option Nat)
    (copyParam : CopyParam) (size : Int) :
    Sized (start rootDir name targetDir object copyParam size : System Client) :=
  ⟨fun _ hi => absurd hi (Nat.not_lt_zero _), fun _ _ _ hw => by simp [Wrong, start] at hw,
    fun h => absurd rfl h, fun h => absurd rfl h⟩

/-- No part of a wrong size gets into the target in a run that reports such
a part only when it is the next to be merged and nobody is merging, and that
reports nothing after an exception. -/
theorem sizes_run (col : Collation) {targetDir : UnicodeString} (hn : slash ∉ name)
    (object : Option Nat) (copyParam : CopyParam) (hsize : 1 ≤ size)
    (h : Reaches (step col) Checked (start rootDir name targetDir object copyParam size) s) :
    SizesChecked col s := by
  have hboth : Inv rootDir name size s ∧ Sized s :=
    h.invariant (P := fun s => Inv rootDir name size s ∧ Sized s)
      ⟨start_inv rootDir name targetDir object copyParam hsize, start_sized ..⟩
      fun _ _ _ hi hok hs => ⟨hi.1.step hn hs, hi.2.step hi.1 hn hok hs⟩
  exact hboth.2.checked hboth.1 col

theorem sizes_run_sample : ∃ s, Reaches (step .ofDecEq) Checked sampleStart s ∧
    s.localOps.map LocalOp.part? = [some 0, some 1, some 2, none] ∧ SizesChecked .ofDecEq s := by
  obtain ⟨s, hs, hlog⟩ := exists_reaches (f := fun s : System Bool => s.localOps.map LocalOp.part?)
    (show (runs (step .ofDecEq) Checked sampleStart (sampleRun 3)).map _ =
      some [some 0, some 1, some 2, none] by decide +kernel)
  exact ⟨s, hs, hlog, sizes_run .ofDecEq (by decide) none {} (by decide) hs⟩

/-- The second part arrives with two bytes of three, before the first one. The
client of the first part then merges both, checking its own size only, and the
target is completed. -/
theorem sizes_run_unchecked : ∃ s, Reaches (step .ofDecEq) (fun _ _ => True) sampleStart s ∧
    ¬ SizesChecked .ofDecEq s := by
  obtain ⟨s, hs, hv⟩ := exists_reaches
    (f := fun s : System Bool => (s.localOps.filterMap LocalOp.part?,
      s.parts[1]?.map CopyParam.partSize, s.reported 1, s.completed))
    (show (runs (step .ofDecEq) (fun _ _ => True) sampleStart (sampleRun 2)).map _ =
      some ([0, 1, 2], some 3, some 2, true) by decide +kernel)
  simp only [Prod.mk.injEq] at hv
  obtain ⟨hm, hp, hr, -⟩ := hv
  obtain ⟨p, hp, hsize⟩ := Option.map_eq_some_iff.mp hp
  refine ⟨s, hs, fun h => ?_⟩
  have := h.merged 1 p (by rw [hm]; decide) hp (by omega)
  rw [hr, hsize] at this
  cases this

end NetBox.Parallel.Merge
