import NetBox.Parallel.Clients

/-! # Parts are merged in order and none is left behind

The merging client leaves the critical section for every part. A part that is
reported meanwhile only gets its mark, so all depends on the merging client
looking at the marks once more before it gives the flag back.
-/
namespace NetBox.Parallel.Merge
open Base.Text Lib.Run Parallel.Operation Parallel.Parts List

variable {Client : Type} [DecidableEq Client] {rootDir name : UnicodeString} {size : Int}
  {op op' : ParallelOperation} {activity : Client → Activity} {c : Client} {s : System Client}
  {m : Merger} {i : Nat}

/-! ## The merge loop -/

/-- The target has got its final name. -/
def System.completed (s : System Client) : Bool := (s.localOps.map LocalOp.part?).contains none

/-- The merging flag, the parts merged so far and what is left when nobody is
merging and nothing was raised. -/
structure Merges (s : System Client) : Prop where
  worker : Worker s.activity s.op.parallelFileMerging
  ready : ∀ c m, s.activity c = .merging m → canMerge s.op = true
  looping : ∀ c m, s.activity c = .looping m → s.completed = false
  merged_le : s.op.parallelFileMerged ≤ s.op.parallelFileCount
  prior : ∀ i < s.op.parallelFileMerged, s.op.parallelFileDones[i]? = some true
  log : s.localOps.map LocalOp.part? = (List.range s.op.parallelFileMerged).map some ++
    (if s.completed then [none] else [])
  complete : s.completed = true → isComplete s.op = true
  behind : s.op.parallelFileMerging = false → s.raised = [] → canMerge s.op = false
  final : s.op.parallelFileMerging = false → s.raised = [] → isComplete s.op = true →
    s.parts ≠ [] → s.completed = true

theorem canMerge_iff (op : ParallelOperation) : canMerge op = true ↔
    op.parallelFileMerged < op.parallelFileCount ∧
      op.parallelFileDones[op.parallelFileMerged]? = some true := by
  unfold canMerge
  cases op.parallelFileDones[op.parallelFileMerged]? with
  | none => simp
  | some b => simp

theorem isComplete_iff (op : ParallelOperation) : isComplete op = true ↔
    op.parallelFileMerged = op.parallelFileCount ∧ op.parallelFileOffset = op.parallelFileSize := by
  simp [isComplete]

/-- A new part is not done, so it neither opens nor closes the loop. -/
theorem Grows.canMerge (hg : Grows op op') (hd : op.parallelFileDones.length = op.parallelFileCount)
    (hm : op.parallelFileMerged ≤ op.parallelFileCount) : canMerge op' = canMerge op := by
  rw [Bool.eq_iff_iff, canMerge_iff, canMerge_iff, hg.merged, hg.count, hg.dones]
  rcases Nat.lt_or_eq_of_le hm with hlt | he
  · rw [getElem?_append_left (by omega)]
    simp [hlt, Nat.lt_succ_of_lt hlt]
  · rw [he, ← hd]
    simp

theorem set_true_mono {dones : List Bool} {k : Nat} (h : dones[k]? = some true) (i : Nat) :
    (dones.set i true)[k]? = some true := by
  have hk := (List.getElem?_eq_some_iff.mp h).1
  by_cases hi : i = k
  · simp [hi, hk]
  · simp [hi, h]

theorem inside_update {a b : Activity} {c' : Client} (ha : a ≠ b)
    (h : Function.update activity c a c' = b) : activity c' = b := by
  rw [Function.update_apply] at h
  split at h
  · exact absurd h ha
  · exact h

/-- Clients outside of the loop do not disturb it. -/
theorem Merges.outside (h : Merges s) (hc : (s.activity c).merger? = none) {a : Activity}
    (ha : a.merger? = none) (b : Bool) :
    Merges { s with activity := Function.update s.activity c a, cancel := b } where
  worker := h.worker.outside hc ha
  ready := fun c' m hm => h.ready c' m (inside_update (by rintro rfl; cases ha) hm)
  looping := fun c' m hm => h.looping c' m (inside_update (by rintro rfl; cases ha) hm)
  merged_le := h.merged_le
  prior := h.prior
  log := h.log
  complete := h.complete
  behind := h.behind
  final := h.final

theorem Merges.take (h : Merges s) (hh : Handed rootDir name size s.op s.parts)
    (hg : Grows s.op op') (hs : Shape rootDir name size op') (hc : s.activity c = .idle) (job : Job)
    (part : CopyParam) :
    Merges { s with
      op := op', activity := Function.update s.activity c (.transferring job)
      parts := s.parts ++ [part] } := by
  have hlen : s.op.parallelFileDones.length = s.op.parallelFileCount := hh.dones.trans hh.count.symm
  have hcan := hg.canMerge hlen h.merged_le
  have hle := h.merged_le
  have hopen : s.completed = false := by
    rw [Bool.eq_false_iff]
    intro hd
    have := ((isComplete_iff _).mp (h.complete hd)).2
    have := hh.shape.fileSize
    have := hs.offset_le
    have := hg.offset
    omega
  have hinc : isComplete op' ≠ true := by
    intro hd
    have := ((isComplete_iff _).mp hd).1
    have := hg.merged
    have := hg.count
    omega
  refine ⟨?_, ?_, ?_, ?_, ?_, ?_, ?_, ?_, ?_⟩
  · simpa only [hg.merging] using h.worker.outside (a := .transferring job) (by rw [hc]; rfl) rfl
  · intro c' m hm
    simpa only [hcan] using h.ready c' m (inside_update (by simp) hm)
  · exact fun c' m hm => h.looping c' m (inside_update (by simp) hm)
  · simp only [hg.merged, hg.count]; omega
  · intro i hi
    rw [hg.merged] at hi
    simp only [hg.dones]
    rw [getElem?_append_left (by omega)]
    exact h.prior i hi
  · simp only [hg.merged]
    exact h.log
  · intro hd
    exact absurd hd (Bool.eq_false_iff.mp hopen)
  · intro hf hr
    simpa only [hcan] using h.behind (hg.merging ▸ hf) hr
  · exact fun _ _ hd => absurd hd hinc

theorem Merges.report {job : Job} {n : Int} (h : Merges s) (hc : s.activity c = .transferring job)
    (hf : s.op.parallelFileMerging = true) :
    Merges { s.report i n with
      activity := Function.update s.activity c .idle, returned := s.returned ++ [i] } where
  worker := h.worker.outside (by rw [hc]; rfl) rfl
  ready := by
    intro c' m hm
    obtain ⟨hlt, hd⟩ := (canMerge_iff _).mp (h.ready c' m (inside_update (by simp) hm))
    exact (canMerge_iff _).mpr ⟨hlt, set_true_mono hd i⟩
  looping := fun c' m hm => h.looping c' m (inside_update (by simp) hm)
  merged_le := h.merged_le
  prior := fun k hk => set_true_mono (h.prior k hk) i
  log := h.log
  complete := h.complete
  behind := fun hf' => absurd (hf.symm.trans hf') (by simp)
  final := fun hf' => absurd (hf.symm.trans hf') (by simp)

theorem Merges.enter {job : Job} {n : Int} (h : Merges s) (hcl : Clients s)
    (hh : Handed rootDir name size s.op s.parts) (hj : s.activity c = .transferring job)
    (hi : partIndex s.op job.copyParam = some i) (hf : s.op.parallelFileMerging = false) :
    Merges ((s.report i n).enter c m) := by
  -- the part is not done, so the file is not complete
  have hopen : s.completed = false := by
    rw [Bool.eq_false_iff]
    intro hd
    have hall := ((isComplete_iff _).mp (h.complete hd)).1
    have hlt := hh.partIndex_lt hi
    have hr := (hcl.marked i).mp (h.prior i (by rw [hall, hh.count]; exact hlt))
    simp [hcl.waiting c job i hj hi] at hr
  have hw : Worker s.activity false := hf ▸ h.worker
  exact {
    worker := hw.enter rfl
    ready := fun c' m' hm => absurd (inside_update (by simp) hm) (hw.nobody c' m').1
    looping := fun _ _ _ => hopen
    merged_le := h.merged_le
    prior := fun k hk => set_true_mono (h.prior k hk) i
    log := h.log
    complete := h.complete
    behind := fun hf' => (Bool.noConfusion hf')
    final := fun hf' => (Bool.noConfusion hf') }

theorem Merges.raise (h : Merges s) (hc : (s.activity c).merger? = some m) (e : DoneError) :
    Merges (s.raise c m e) where
  worker := h.worker.leave hc
  ready := fun c' m' hm => h.ready c' m' (inside_update (by simp) hm)
  looping := fun c' m' hm => h.looping c' m' (inside_update (by simp) hm)
  merged_le := h.merged_le
  prior := h.prior
  log := h.log
  complete := h.complete
  behind := fun _ hr => by simp [System.raise] at hr
  final := fun _ hr => by simp [System.raise] at hr

theorem Merges.leave (h : Merges s) (hc : s.activity c = .looping m)
    (hcan : canMerge s.op = false) (hinc : isComplete s.op = false) : Merges (s.leave c m) where
  worker := h.worker.leave (by rw [hc]; rfl)
  ready := fun c' m' hm => h.ready c' m' (inside_update (by simp) hm)
  looping := fun c' m' hm => h.looping c' m' (inside_update (by simp) hm)
  merged_le := h.merged_le
  prior := h.prior
  log := h.log
  complete := h.complete
  behind := fun _ _ => hcan
  final := fun _ _ hd => absurd (hinc.symm.trans hd) (by simp)

/-- Leaving with the final rename, which nobody has made before. -/
theorem Merges.finish (h : Merges s) (hc : s.activity c = .looping m)
    (hcan : canMerge s.op = false) (hcomp : isComplete s.op = true) (source target : UnicodeString) :
    Merges { s.leave c m with localOps := s.localOps ++ [.renameCompleted source target] } := by
  have hopen := h.looping c m hc
  have hlog := h.log
  rw [hopen] at hlog
  have hnow : System.completed
      { s.leave c m with localOps := s.localOps ++ [.renameCompleted source target] } = true := by
    simp [System.completed, LocalOp.part?]
  have hw : Worker (Function.update s.activity c .idle) false :=
    h.worker.leave (m := m) (by rw [hc]; rfl)
  exact {
    worker := hw
    ready := fun c' m' hm => absurd hm (hw.nobody c' m').1
    looping := fun c' m' hm => absurd hm (hw.nobody c' m').2
    merged_le := h.merged_le
    prior := h.prior
    log := by rw [hnow]; simpa [LocalOp.part?, System.leave] using hlog
    complete := fun _ => hcomp
    behind := fun _ _ => hcan
    final := fun _ _ _ _ => hnow }

theorem Merges.continue (h : Merges s) (hc : s.activity c = .looping m) (hcan : canMerge s.op = true) :
    Merges { s with activity := Function.update s.activity c (.merging m) } where
  worker := h.worker.stay (m := m) (by rw [hc]; rfl) rfl
  ready := fun _ _ _ => hcan
  looping := fun c' m' hm => h.looping c' m' (inside_update (by simp) hm)
  merged_le := h.merged_le
  prior := h.prior
  log := h.log
  complete := h.complete
  behind := h.behind
  final := h.final

/-- The next part is merged, and so are all before it. -/
theorem Merges.merge (h : Merges s) (hc : s.activity c = .merging m) {x : LocalOp}
    (hx : x.part? = some s.op.parallelFileMerged) :
    Merges { s with
      op := { s.op with parallelFileMerged := s.op.parallelFileMerged + 1 }
      activity := Function.update s.activity c (.looping m)
      localOps := s.localOps ++ [x] } := by
  obtain ⟨hlt, hd⟩ := (canMerge_iff _).mp (h.ready c m hc)
  have hin : (s.activity c).merger? = some m := by rw [hc]; rfl
  have hopen : s.completed = false := by
    rw [Bool.eq_false_iff]
    intro hd
    have := ((isComplete_iff _).mp (h.complete hd)).1
    omega
  have hnow : System.completed { s with
      op := { s.op with parallelFileMerged := s.op.parallelFileMerged + 1 }
      activity := Function.update s.activity c (.looping m)
      localOps := s.localOps ++ [x] } = false := by
    simpa [System.completed, hx] using hopen
  have hlog := h.log
  rw [hopen] at hlog
  have hflag : s.op.parallelFileMerging = true := h.worker.flag.mpr ⟨c, m, hin⟩
  exact {
    worker := h.worker.stay hin rfl
    ready := by
      intro c' m' hm
      have hm : s.activity c' = .merging m' ∧ c' ≠ c := by
        simp only [Function.update_apply] at hm
        split at hm
        · cases hm
        · rename_i hne; exact ⟨hm, hne⟩
      exact absurd (h.worker.alone c' c m' m (by rw [hm.1]; rfl) hin) hm.2
    looping := fun _ _ _ => hnow
    merged_le := hlt
    prior := by
      intro i hi
      rcases Nat.lt_succ_iff_lt_or_eq.mp hi with hi | rfl
      · exact h.prior i hi
      · exact hd
    log := by rw [hnow]; simpa [range_succ, hx] using hlog
    complete := fun hd => absurd (hnow.symm.trans hd) (by simp)
    behind := fun hf => absurd (hflag.symm.trans hf) (by simp)
    final := fun hf => absurd (hflag.symm.trans hf) (by simp) }

/-! ## Every run -/

structure Inv (rootDir name : UnicodeString) (size : Int) (s : System Client) : Prop where
  handed : Handed rootDir name size s.op s.parts
  clients : Clients s
  merges : Merges s

/-- The system when the transfer of `rootDir/name` starts. -/
def start (rootDir name targetDir : UnicodeString) (object : Option Nat) (copyParam : CopyParam)
    (size : Int) : System Client :=
  { op := bigFile rootDir name targetDir object copyParam size }

omit [DecidableEq Client] in
theorem start_inv (rootDir name targetDir : UnicodeString) (object : Option Nat)
    (copyParam : CopyParam) {size : Int} (h : 1 ≤ size) :
    Inv rootDir name size
      (start rootDir name targetDir object copyParam size : System Client) where
  handed := ⟨⟨rfl, rfl, .inl ⟨bigFile_open rootDir name targetDir object copyParam h, rfl, h⟩⟩,
    fun _ => rfl, rfl, rfl, rfl, by simp [start], fun _ => rfl⟩
  clients := ⟨⟨by simp [start, Activity.job?], by simp [start, Activity.job?]⟩,
    by simp [start, bigFile, init], by simp [start], by simp [start, Activity.merger?],
    by simp [start], by simp [start]⟩
  merges := ⟨⟨by simp [start, bigFile, init, Activity.merger?], by simp [start, Activity.merger?]⟩,
    by simp [start], by simp [start], Nat.le_refl _, by simp [start, bigFile, init], rfl,
    by simp [start, System.completed], fun _ _ => rfl, by simp [start]⟩

theorem Inv.getNext (h : Inv rootDir name size s) (hn : slash ∉ name) (hc : s.activity c = .idle)
    (col : Collation) (t : Terminal) {limit : Int} (h1 : 1 ≤ limit) (h2 : limit ≤ size) :
    Inv rootDir name size (s.getNext col c t limit) := by
  obtain ⟨hh, hcl, hm⟩ := h
  unfold System.getNext
  rcases hh.shape.getNext hn col t h1 h2 with ⟨r, b, hr, hout⟩ |
    ⟨out, part, op', hr, hres, hpart, hoff, ht, hg, hs, -⟩
  · have hh' := hh.update b s.op.parallelFileMerging s.op.parallelFileMerged rfl
    have hcl' : Clients { s with op := { s.op with probablyEmpty := b } } :=
      ⟨hcl.jobs.shrink rfl rfl fun _ _ hj => hj, hcl.marked, hcl.waiting, hcl.inside, hcl.returned,
        hcl.raised⟩
    have hm' : Merges { s with op := { s.op with probablyEmpty := b } } :=
      ⟨hm.worker, hm.ready, hm.looping, hm.merged_le, hm.prior, hm.log, hm.complete, hm.behind,
        hm.final⟩
    rw [hr]
    cases r with
    | error e => exact ⟨hh', hcl', hm'⟩
    | ok out =>
      dsimp only
      split
      · rename_i hpos
        obtain ⟨hnone, ht, -⟩ := hout out rfl hpos
        have hidx : ∀ p, partIndex s.op p = none := by
          intro p
          simp [partIndex, hh.offsets, hh.plain ht]
        rw [hnone, Option.toList_none, append_nil]
        exact ⟨hh', hcl'.takeWhole hidx ht _, hm'.outside (by rw [hc]; rfl) rfl _⟩
      · exact ⟨hh', hcl', hm'⟩
  · rw [hr]
    simp only [hres, hpart, Int.zero_lt_one, if_true, Option.toList_some, Option.getD_some]
    exact ⟨hh.take hg hs ht hoff,
      hcl.take hh hg ht ⟨out.fileName, out.targetDir, part⟩ hoff, hm.take hh hg hs hc _ part⟩

theorem Inv.mergeLoop (h : Inv rootDir name size s) (hc : s.activity c = .looping m) (works : Bool) :
    Inv rootDir name size (s.mergeLoop c m works) := by
  obtain ⟨hh, hcl, hm⟩ := h
  have hin : (s.activity c).merger? = some m := by rw [hc]; rfl
  have hfree := hh.update s.op.probablyEmpty false s.op.parallelFileMerged rfl
  unfold System.mergeLoop
  by_cases hcan : canMerge s.op = true
  · rw [if_pos hcan]
    exact ⟨hh, hcl.stay hin rfl _ _, hm.continue hc hcan⟩
  · rw [if_neg hcan]
    rw [Bool.not_eq_true] at hcan
    by_cases hcomp : isComplete s.op = true
    · rw [if_pos hcomp]
      cases works with
      | true =>
        have hl := hcl.leave hm.worker hin
        exact ⟨hfree, ⟨hl.jobs, hl.marked, hl.waiting, hl.inside, hl.returned, hl.raised⟩,
          hm.finish hc hcan hcomp _ _⟩
      | false => exact ⟨hfree, hcl.raise hm.worker hin _, hm.raise hin _⟩
    · rw [if_neg hcomp]
      rw [Bool.not_eq_true] at hcomp
      exact ⟨hfree, hcl.leave hm.worker hin, hm.leave hc hcan hcomp⟩

theorem Inv.merge (h : Inv rootDir name size s) (hc : s.activity c = .merging m) (works : Bool) :
    Inv rootDir name size (s.merge c m works) := by
  obtain ⟨hh, hcl, hm⟩ := h
  have hin : (s.activity c).merger? = some m := by rw [hc]; rfl
  have hfree := hh.update s.op.probablyEmpty false s.op.parallelFileMerged rfl
  unfold System.merge
  by_cases hbad : m.inconsistent = true
  · simp only [hbad, if_true]
    exact ⟨hfree, hcl.raise hm.worker hin _, hm.raise hin _⟩
  · simp only [hbad, if_false, Bool.false_eq_true]
    cases works with
    | true =>
      refine ⟨hh.update s.op.probablyEmpty _ _ rfl, hcl.stay hin rfl _ _, hm.merge hc ?_⟩
      split <;> rfl
    | false => exact ⟨hfree, hcl.raise hm.worker hin _, hm.raise hin _⟩

theorem Inv.done (h : Inv rootDir name size s) {job : Job} (hc : s.activity c = .transferring job)
    (success : Bool) (n : Int) (works : Bool) :
    Inv rootDir name size (s.done c job success n works) := by
  have hidle : ∀ b, Inv rootDir name size
      { s with activity := Function.update s.activity c .idle, cancel := b } := fun b =>
    ⟨h.handed, h.clients.idle c b, h.merges.outside (by rw [hc]; rfl) rfl b⟩
  obtain ⟨hh, hcl, hm⟩ := h
  unfold System.done
  cases success with
  | false => exact hidle true
  | true =>
    rw [if_neg (by simp), if_neg (by simp [hh.shape.side])]
    split
    · exact hidle s.cancel
    · rename_i i hi
      have hlt : i < s.op.parallelFileDones.length := hh.dones ▸ hh.partIndex_lt hi
      have hset := hh.update s.op.probablyEmpty
      by_cases hf : s.op.parallelFileMerging = true
      · rw [if_pos hf]
        exact ⟨hset _ _ (length_set ..), hcl.report hlt hc hi, hm.report hc hf⟩
      · rw [if_neg hf]
        rw [Bool.not_eq_true] at hf
        have henter : ∀ m : Merger, m.job = job → m.index = i → m.transferred = n →
            Inv rootDir name size ((s.report i n).enter c m) := fun m h1 h2 h3 =>
          ⟨hset _ _ (length_set ..), hcl.enter hlt hc hi h1 h2 h3, hm.enter hcl hh hc hi hf⟩
        exact (henter _ rfl rfl rfl).mergeLoop (by simp [System.enter]) works

theorem Inv.step {col : Collation} {t : System Client} {a : Action Client}
    (h : Inv rootDir name size s) (hn : slash ∉ name) (hs : Merge.step col s a = some t) :
    Inv rootDir name size t := by
  obtain ⟨c, term, limit, -, hc, h1, h2, rfl⟩ | ⟨c, job, success, n, works, -, hc, rfl⟩ |
    ⟨c, m, works, -, hc, rfl⟩ | ⟨c, m, works, -, hc, rfl⟩ := step_cases hs
  · exact h.getNext hn hc col term h1 (h.handed.shape.fileSize ▸ h2)
  · exact h.done hc success n works
  · exact h.merge hc works
  · exact h.mergeLoop hc works

/-! ## The names of the files -/

/-- What is done with the file of part `index`: the first part is renamed, the
others are read, appended to it and deleted. -/
def mergeOp (dir name : UnicodeString) (index : Nat) : LocalOp :=
  let source := combinePaths dir (partFile name index)
  let target := combinePaths dir name ++ partialExt
  if index = 0 then .renamePart index source target else .appendPart index source target

def finalOp (dir name : UnicodeString) : LocalOp :=
  .renameCompleted (combinePaths dir name ++ partialExt) (combinePaths dir name)

/-- `GetNext` is called for a terminal that leaves the name of the file as it is. -/
def Action.keepsName (copyParam : CopyParam) (name : UnicodeString) : Action Client → Bool
  | .getNext _ t _ => t.changeFileName copyParam name .osRemote true == name
  | _ => true

/-- The job and the target name of a client in the merge loop. -/
def Activity.Named (dir name : UnicodeString) (a : Activity) : Prop :=
  (∀ job, a.job? = some job → job.targetDir = dir ∧ unixExtractFileName job.fileName = name) ∧
    ∀ m, a.merger? = some m → m.targetName = combinePaths dir name

/-- The names that parts are stored under, and those the merge loop uses. -/
structure Names (dir name : UnicodeString) (copyParam : CopyParam) (s : System Client) : Prop where
  targetDir : s.op.targetDir = dir
  param : s.op.copyParam = copyParam
  targetName : s.op.parallelFileTargetName = if s.parts = [] then [] else name
  masks : ∀ i part, s.parts[i]? = some part →
    part.fileMask = delimitFileNameMask (partFile name i)
  activity : ∀ c, (s.activity c).Named dir name
  ops : ∀ x ∈ s.localOps, x = x.part?.elim (finalOp dir name) (mergeOp dir name)

section Names

variable {dir : UnicodeString} {copyParam : CopyParam} {t : System Client} {a : Activity}

omit [DecidableEq Client] in
theorem start_names (rootDir name targetDir : UnicodeString) (object : Option Nat)
    (copyParam : CopyParam) (size : Int) : Names targetDir name copyParam
      (start rootDir name targetDir object copyParam size : System Client) :=
  ⟨rfl, rfl, rfl, by simp [start], by simp [start, Activity.Named, Activity.job?, Activity.merger?],
    by simp [start]⟩

theorem Named.update (h : ∀ c, (activity c).Named dir name) (ha : a.Named dir name) (c' : Client) :
    (Function.update activity c a c').Named dir name := by
  rw [Function.update_apply]
  split
  · exact ha
  · exact h c'

/-- No part is handed out. -/
theorem Names.move (h : Names dir name copyParam s) (ha : a.Named dir name)
    (hop : (t.op.targetDir, t.op.copyParam, t.op.parallelFileTargetName, t.parts) =
      (s.op.targetDir, s.op.copyParam, s.op.parallelFileTargetName, s.parts))
    (hact : t.activity = Function.update s.activity c a)
    (hops : ∀ x ∈ t.localOps, x ∈ s.localOps ∨
      x = x.part?.elim (finalOp dir name) (mergeOp dir name)) : Names dir name copyParam t := by
  simp only [Prod.mk.injEq] at hop
  obtain ⟨hdir, hparam, htarget, hparts⟩ := hop
  exact ⟨hdir.trans h.targetDir, hparam.trans h.param, by rw [htarget, hparts, h.targetName],
    hparts ▸ h.masks, hact ▸ Named.update h.activity ha, fun x hx => (hops x hx).elim (h.ops x) id⟩

theorem named_idle (dir name : UnicodeString) : Activity.idle.Named dir name :=
  ⟨by simp [Activity.job?], by simp [Activity.merger?]⟩

theorem Names.getNext {term : Terminal} {limit : Int} (h : Names dir name copyParam s)
    (hi : Inv rootDir name size s) (hn : slash ∉ name) (col : Collation)
    (ht : term.changeFileName copyParam name .osRemote true = name)
    (h1 : 1 ≤ limit) (h2 : limit ≤ size) :
    Names dir name copyParam (s.getNext col c term limit) := by
  have hjob : ∀ fileName targetDir part, fileName = rootDir ++ slash :: name →
      targetDir = s.op.targetDir → (Activity.transferring ⟨fileName, targetDir, part⟩).Named dir name := by
    rintro _ _ part rfl rfl
    refine ⟨?_, fun _ h => nomatch h⟩
    rintro _ ⟨⟩
    exact ⟨h.targetDir, unixExtractFileName_join rootDir hn⟩
  unfold System.getNext
  rcases hi.handed.shape.getNext hn col term h1 h2 with ⟨r, b, hr, hout⟩ |
    ⟨out, part, op', hr, hres, hpart, -, -, hg, -, hgiven⟩
  · have h' : Names dir name copyParam { s with op := { s.op with probablyEmpty := b } } :=
      ⟨h.targetDir, h.param, h.targetName, h.masks, h.activity, h.ops⟩
    rw [hr]
    cases r with
    | error e => exact h'
    | ok out =>
      dsimp only
      split
      · rename_i hpos
        obtain ⟨hnone, -, hfile, hdir⟩ := hout out rfl hpos
        rw [hnone, Option.toList_none, append_nil]
        exact h'.move (hjob _ _ _ hfile hdir) rfl rfl fun _ => .inl
      · exact h'
  · have hname : term.changeFileName s.op.copyParam name .osRemote true = name := h.param ▸ ht
    rw [hr]
    simp only [hres, hpart, Int.zero_lt_one, if_true, Option.toList_some, Option.getD_some]
    refine ⟨hg.targetDir.trans h.targetDir, hgiven.copyParam.trans h.param, ?_, ?_,
      Named.update h.activity (hjob _ _ _ hgiven.fileName hgiven.dir), h.ops⟩
    · have htarget := h.targetName
      simp only [hgiven.target, hname]
      split at htarget <;> simp [htarget]
    · intro i p hp
      rcases lt_trichotomy i s.parts.length with hlt | rfl | hgt
      · rw [getElem?_append_left hlt] at hp
        exact h.masks i p hp
      · obtain rfl : part = p := by simpa using hp
        rw [hgiven.mask, hname, hi.handed.count]
      · rw [getElem?_eq_none (by simpa using hgt)] at hp
        cases hp

theorem Names.mergeLoop (h : Names dir name copyParam s) (hc : s.activity c = .looping m)
    (works : Bool) : Names dir name copyParam (s.mergeLoop c m works) := by
  have hm : (Activity.looping m).Named dir name := hc ▸ h.activity c
  have hidle := named_idle dir name
  unfold System.mergeLoop
  split
  · exact h.move (a := .merging m) hm rfl rfl fun _ => .inl
  · split
    · cases works with
      | true =>
        refine h.move hidle rfl rfl fun x hx => ?_
        rcases mem_append.mp hx with hx | hx
        · exact .inl hx
        · rw [mem_singleton.mp hx, Merger.targetNamePartial, hm.2 m rfl]
          exact .inr rfl
      | false => exact h.move hidle rfl rfl fun _ => .inl
    · exact h.move hidle rfl rfl fun _ => .inl

theorem Names.merge (h : Names dir name copyParam s) (hc : s.activity c = .merging m)
    (works : Bool) : Names dir name copyParam (s.merge c m works) := by
  have hm : (Activity.merging m).Named dir name := hc ▸ h.activity c
  have hidle := named_idle dir name
  obtain ⟨hdir, hname⟩ := hm.1 m.job rfl
  have hpart : ∀ i, m.partName i = combinePaths dir (partFile name i) := by
    simp [Merger.partName, partFile, getPartPrefix, combinePaths, hdir, hname]
  unfold System.merge
  split
  · exact h.move hidle rfl rfl fun _ => .inl
  · cases works with
    | true =>
      refine h.move (a := .looping m) hm rfl rfl fun x hx => ?_
      rcases mem_append.mp hx with hx | hx
      · exact .inl hx
      · right
        rw [mem_singleton.mp hx, hpart, Merger.targetNamePartial, hm.2 m rfl]
        by_cases h0 : s.op.parallelFileMerged = 0 <;> simp [h0, LocalOp.part?, mergeOp]
    | false => exact h.move hidle rfl rfl fun _ => .inl

theorem Names.done {job : Job} (h : Names dir name copyParam s) (hi : Inv rootDir name size s)
    (hc : s.activity c = .transferring job) (success : Bool) (n : Int) (works : Bool) :
    Names dir name copyParam (s.done c job success n works) := by
  have hidle := named_idle dir name
  unfold System.done
  split
  · exact h.move hidle rfl rfl fun _ => .inl
  split
  · exact h.move hidle rfl rfl fun _ => .inl
  split
  · exact h.move hidle rfl rfl fun _ => .inl
  rename_i i hidx
  split
  · exact h.move hidle rfl rfl fun _ => .inl
  · have hparts : s.parts ≠ [] :=
      ne_nil_of_length_pos (Nat.zero_lt_of_lt (hi.handed.partIndex_lt hidx))
    have hjob := (hc ▸ h.activity c).1 job rfl
    have henter : ∀ m : Merger, m.job = job →
        m.targetName = combinePaths job.targetDir s.op.parallelFileTargetName →
        Names dir name copyParam ((s.report i n).enter c m) := by
      rintro m rfl hname
      refine h.move (a := .looping m) ⟨?_, ?_⟩ rfl rfl fun _ => .inl
      · rintro _ ⟨⟩
        exact hjob
      · rintro _ ⟨⟩
        rw [hname, hjob.1, h.targetName, if_neg hparts]
    exact (henter _ rfl rfl).mergeLoop (by simp [System.enter]) works

theorem Names.step {col : Collation} {a : Action Client} (h : Names dir name copyParam s)
    (hi : Inv rootDir name size s) (hn : slash ∉ name) (hok : a.keepsName copyParam name = true)
    (hs : Merge.step col s a = some t) : Names dir name copyParam t := by
  obtain ⟨c, term, limit, rfl, -, h1, h2, rfl⟩ | ⟨c, job, success, n, works, -, hc, rfl⟩ |
    ⟨c, m, works, -, hc, rfl⟩ | ⟨c, m, works, -, hc, rfl⟩ := step_cases hs
  · exact h.getNext hi hn col (eq_of_beq hok) h1 (hi.handed.shape.fileSize ▸ h2)
  · exact h.done hi hc success n works
  · exact h.merge hc works
  · exact h.mergeLoop hc works

end Names

/-- What the merging of parts is to achieve, of the system as it is now: `target`
is the name of the file in `dir`. Files are read, written and deleted under
the names the parts were stored by. -/
structure MergesInOrder (dir target : UnicodeString) (size : Int) (s : System Client) : Prop where
  stored : ∀ i part, s.parts[i]? = some part →
    part.fileMask = delimitFileNameMask (partFile target i)
  placed : ∀ c job, (s.activity c).job? = some job → job.targetDir = dir
  named : ∀ x ∈ s.localOps, x = x.part?.elim (finalOp dir target) (mergeOp dir target)
  order : s.localOps.filterMap LocalOp.part? = List.range s.op.parallelFileMerged
  alone : ∀ c c' m m', s.activity c = .merging m → s.activity c' = .merging m' → c = c'
  once : (s.localOps.map LocalOp.part?).count none ≤ 1
  last : none ∈ s.localOps.map LocalOp.part? →
    s.localOps.map LocalOp.part? = (List.range s.parts.length).map some ++ [none] ∧
      s.op.parallelFileOffset = size
  all : s.op.parallelFileOffset = size → (∀ i < s.parts.length, i ∈ s.returned) →
    s.localOps.map LocalOp.part? = (List.range s.parts.length).map some ++ [none]

omit [DecidableEq Client] in
theorem Inv.log_completed (h : Inv rootDir name size s) (hc : s.completed = true) :
    s.localOps.map LocalOp.part? = (List.range s.parts.length).map some ++ [none] := by
  have hlog := h.merges.log
  rwa [hc, if_pos rfl, ((isComplete_iff _).mp (h.merges.complete hc)).1, h.handed.count] at hlog

omit [DecidableEq Client] in
/-- Once `Done` has returned for every part nobody is merging, nothing was
raised and no part is left behind. -/
theorem Inv.completed_of_returned (h : Inv rootDir name size s) (hsize : 1 ≤ size)
    (ho : s.op.parallelFileOffset = size) (hall : ∀ i < s.parts.length, i ∈ s.returned) :
    s.completed = true := by
  obtain ⟨hh, hcl, hm⟩ := h
  have hdone : ∀ i < s.parts.length, s.op.parallelFileDones[i]? = some true := fun i hi =>
    (hcl.marked i).mpr (hcl.returned i (hall i hi)).1
  have hflag : s.op.parallelFileMerging = false := by
    rw [Bool.eq_false_iff]
    intro hf
    obtain ⟨c, m, hin⟩ := hm.worker.flag.mp hf
    obtain ⟨hi, -, hret, -⟩ := hcl.inside c m hin
    exact hret (hall _ (hh.partIndex_lt hi))
  have hraised : s.raised = [] := by
    rw [eq_nil_iff_forall_not_mem]
    rintro ⟨i, e⟩ he
    have hi := (List.getElem?_eq_some_iff.mp ((hcl.marked i).mpr (hcl.raised i e he))).1
    exact (hcl.returned i (hall i (hh.dones ▸ hi))).2 e he
  have hmerged : s.op.parallelFileMerged = s.op.parallelFileCount := by
    by_contra hne
    have hlt : s.op.parallelFileMerged < s.op.parallelFileCount := lt_of_le_of_ne hm.merged_le hne
    have hcan := (canMerge_iff _).mpr ⟨hlt, hdone _ (hh.count ▸ hlt)⟩
    exact absurd (hm.behind hflag hraised) (by rw [hcan]; simp)
  have hparts : s.parts ≠ [] := fun he => by have := hh.begun he; omega
  exact hm.final hflag hraised ((isComplete_iff _).mpr ⟨hmerged, ho.trans hh.shape.fileSize.symm⟩) hparts

omit [DecidableEq Client] in
theorem Merges.order (h : Merges s) :
    s.localOps.filterMap LocalOp.part? = List.range s.op.parallelFileMerged := by
  have hf : s.localOps.filterMap LocalOp.part? = (s.localOps.map LocalOp.part?).filterMap id := by
    rw [filterMap_map]; rfl
  rw [hf, h.log]
  split <;> simp

omit [DecidableEq Client] in
theorem Inv.mergesInOrder {dir : UnicodeString} {copyParam : CopyParam}
    (h : Inv rootDir name size s) (hnames : Names dir name copyParam s) (hsize : 1 ≤ size) :
    MergesInOrder dir name size s where
  stored := hnames.masks
  placed := fun c job hj => ((hnames.activity c).1 job hj).1
  named := hnames.ops
  order := h.merges.order
  alone := fun c c' m m' hc hc' =>
    h.merges.worker.alone c c' m m' (by rw [hc]; rfl) (by rw [hc']; rfl)
  once := by
    have hz : ((List.range s.op.parallelFileMerged).map some).count none = 0 :=
      count_eq_zero.mpr (by simp)
    rw [h.merges.log, count_append, hz]
    split <;> simp
  last := by
    intro hn
    have hc : s.completed = true := contains_iff_mem.mpr hn
    exact ⟨h.log_completed hc,
      ((isComplete_iff _).mp (h.merges.complete hc)).2.trans h.handed.shape.fileSize⟩
  all := fun ho hall => h.log_completed (h.completed_of_returned hsize ho hall)

/-- No part is lost or merged twice, however the clients interleave, when the file
keeps its name: parts are merged in the order of their index by one client at
a time, under the names they were stored by, the target gets its final name at
most once, when all of the file was handed out and all its parts are merged,
and that has happened when `Done` has returned for all of them. -/
theorem merge_run (col : Collation) {targetDir : UnicodeString} (hn : slash ∉ name)
    (object : Option Nat) (copyParam : CopyParam) (hsize : 1 ≤ size)
    (h : Reaches (step col) (fun _ a => a.keepsName copyParam name = true)
      (start rootDir name targetDir object copyParam size) s) :
    MergesInOrder targetDir name size s := by
  have hinv := h.invariant
    (P := fun s => Inv rootDir name size s ∧ Names targetDir name copyParam s)
    ⟨start_inv rootDir name targetDir object copyParam hsize, start_names ..⟩
    fun _ _ _ hi hok hs => ⟨hi.1.step hn hs, hi.2.step hi.1 hn hok hs⟩
  exact hinv.1.mergesInOrder hinv.2 hsize

/-- Two clients and a file of nine bytes in three parts: the second client is
through with its part first, and then takes the last one. -/
def sampleRun (transferred : Int) : List (Action Bool) :=
  [.getNext false plainTerminal 3, .getNext true plainTerminal 3, .done true true transferred true,
    .getNext true plainTerminal 3, .done false true 3 true, .merge false true, .relock false true,
    .merge false true, .done true true 3 true, .relock false true, .merge false true,
    .relock false true]

def sampleStart : System Bool := start (wstr "/home") (wstr "f") (wstr "C:\\d") none {} 9

theorem merge_run_sample : ∃ s, Reaches (step .ofDecEq) (fun _ a => a.keepsName {} (wstr "f") = true)
      sampleStart s ∧ s.localOps.map LocalOp.part? = [some 0, some 1, some 2, none] ∧
    MergesInOrder (wstr "C:\\d") (wstr "f") 9 s := by
  obtain ⟨s, hs, hlog⟩ := exists_reaches (f := fun s : System Bool => s.localOps.map LocalOp.part?)
    (show (runs (step .ofDecEq) (fun _ a => a.keepsName {} (wstr "f") = true) sampleStart
      (sampleRun 3)).map _ = some [some 0, some 1, some 2, none] by decide +kernel)
  exact ⟨s, hs, hlog, merge_run .ofDecEq (by decide) none {} (by decide) hs⟩

/-- The file is to be stored as `g`: its part is, but what the merge loop renames is a part of `f`. -/
theorem merge_run_renamed : ∃ s, Reaches (step .ofDecEq) (fun _ _ => True) sampleStart s ∧
    s.parts.map CopyParam.fileMask = [wstr "g.filepart.0"] ∧
    s.localOps = [.renamePart 0 (wstr "C:\\d\\f.filepart.0") (wstr "C:\\d\\g.filepart"),
      .renameCompleted (wstr "C:\\d\\g.filepart") (wstr "C:\\d\\g")] ∧
    ¬ MergesInOrder (wstr "C:\\d") (wstr "g") 9 s := by
  obtain ⟨s, hs, hnames⟩ := exists_reaches
    (f := fun s : System Bool => (s.parts.map CopyParam.fileMask, s.localOps))
    (show (runs (step .ofDecEq) (fun _ _ => True) sampleStart
      [.getNext false ⟨fun _ _ _ _ => wstr "g"⟩ 1, .done false true 9 true, .merge false true,
        .relock false true]).map _ = some ([wstr "g.filepart.0"],
      [.renamePart 0 (wstr "C:\\d\\f.filepart.0") (wstr "C:\\d\\g.filepart"),
        .renameCompleted (wstr "C:\\d\\g.filepart") (wstr "C:\\d\\g")]) by decide +kernel)
  obtain ⟨hparts, hops⟩ := Prod.mk.inj hnames
  refine ⟨s, hs, hparts, hops, fun h => ?_⟩
  have hnamed := h.named
  rw [hops] at hnamed
  exact absurd (hnamed _ mem_cons_self) (by decide +kernel)

/-- The clients never get in each other's way, whatever fails: at most one of them is in the
merge loop and the flag is set just as long, no two have the same part, and the parts that are
marked are those that were reported. -/
theorem clients_run (col : Collation) {targetDir : UnicodeString} (hn : slash ∉ name)
    (object : Option Nat) (copyParam : CopyParam) (hsize : 1 ≤ size)
    (h : Reaches (step col) (fun _ _ => True)
      (start rootDir name targetDir object copyParam size) s) :
    Worker s.activity s.op.parallelFileMerging ∧ Clients s := by
  have hinv := h.invariant (start_inv rootDir name targetDir object copyParam hsize)
    fun _ _ _ hi _ hs => hi.step hn hs
  exact ⟨hinv.merges.worker, hinv.clients⟩

/-- The merge of the first part fails, and the second client goes on. -/
theorem clients_run_failed : ∃ s, Reaches (step .ofDecEq) (fun _ _ => True) sampleStart s ∧
    s.raised = [(0, .localFile)] ∧ Worker s.activity s.op.parallelFileMerging ∧ Clients s := by
  obtain ⟨s, hs, hraised⟩ := exists_reaches (f := System.raised)
    (show (runs (step .ofDecEq) (fun _ _ => True) sampleStart
      [.getNext false plainTerminal 3, .getNext true plainTerminal 3, .done false true 3 true,
        .merge false false]).map _ = some [(0, .localFile)] by decide +kernel)
  exact ⟨s, hs, hraised, clients_run .ofDecEq (by decide) none {} (by decide) hs⟩

end NetBox.Parallel.Merge
