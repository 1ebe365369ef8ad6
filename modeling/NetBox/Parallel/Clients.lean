import NetBox.Parallel.Merge

/-! # The clients of a big file

What each client holds while parts are handed out, reported and merged: no two
of them work on one part, a part is marked as done exactly when it was
reported, and at most one client is inside the merge loop.
-/

namespace NetBox.Parallel.Merge
open Base.Text Parallel.Operation List

variable {Client : Type} [DecidableEq Client] {rootDir name : UnicodeString} {size : Int}
  {op op' : ParallelOperation} {parts : List CopyParam}

/-! ## Jobs and the worker -/

/-- No two clients work on one part. -/
structure Jobs (activity : Client → Activity) (op : ParallelOperation) (parts : List CopyParam) :
    Prop where
  known : ∀ c job, (activity c).job? = some job → op.targetDir ≠ [] →
    ∃ i, partIndex op job.copyParam = some i ∧ parts[i]? = some job.copyParam
  apart : ∀ c c' job job' i, (activity c).job? = some job → (activity c').job? = some job' →
    partIndex op job.copyParam = some i → partIndex op job'.copyParam = some i → c = c'

/-- The jobs of the clients and the parts reported so far. -/
structure Clients (s : System Client) : Prop where
  jobs : Jobs s.activity s.op s.parts
  marked : ∀ i, s.op.parallelFileDones[i]? = some true ↔ (s.reported i).isSome
  waiting : ∀ c job i, s.activity c = .transferring job → partIndex s.op job.copyParam = some i →
    s.reported i = none
  inside : ∀ c m, (s.activity c).merger? = some m → partIndex s.op m.job.copyParam = some m.index ∧
    s.reported m.index = some m.transferred ∧ m.index ∉ s.returned ∧ ∀ e, (m.index, e) ∉ s.raised
  returned : ∀ i ∈ s.returned, (s.reported i).isSome ∧ ∀ e, (i, e) ∉ s.raised
  raised : ∀ i e, (i, e) ∈ s.raised → (s.reported i).isSome

/-- At most one client is inside the merge loop, and the flag says whether. -/
structure Worker (activity : Client → Activity) (flag : Bool) : Prop where
  flag : flag = true ↔ ∃ c m, (activity c).merger? = some m
  alone : ∀ c c' m m', (activity c).merger? = some m → (activity c').merger? = some m' → c = c'

variable {activity : Client → Activity} {flag : Bool} {c : Client} {a : Activity} {c' : Client}

theorem merger?_update {m : Merger} (ha : a.merger? = none)
    (h : (Function.update activity c a c').merger? = some m) :
    c' ≠ c ∧ (activity c').merger? = some m := by
  rw [Function.update_apply] at h
  split at h
  · rw [ha] at h; cases h
  · rename_i hne; exact ⟨hne, h⟩

theorem Worker.outside (h : Worker activity flag) (hc : (activity c).merger? = none)
    (ha : a.merger? = none) : Worker (Function.update activity c a) flag where
  flag := by
    rw [h.flag]
    constructor
    · rintro ⟨c', m, hm⟩
      have hne : c' ≠ c := by rintro rfl; rw [hc] at hm; cases hm
      exact ⟨c', m, by rwa [Function.update_of_ne hne]⟩
    · rintro ⟨c', m, hm⟩
      exact ⟨c', m, (merger?_update ha hm).2⟩
  alone := fun c₁ c₂ m m' h₁ h₂ =>
    h.alone c₁ c₂ m m' (merger?_update ha h₁).2 (merger?_update ha h₂).2

theorem Worker.leave (h : Worker activity flag) {m : Merger} (hc : (activity c).merger? = some m) :
    Worker (Function.update activity c .idle) false := by
  have hout : ∀ c' m', (Function.update activity c .idle c').merger? ≠ some m' := by
    intro c' m' hm
    obtain ⟨hne, hm⟩ := merger?_update rfl hm
    exact hne (h.alone c' c m' m hm hc)
  exact ⟨⟨fun h => (Bool.false_ne_true h).elim, fun ⟨c', m', hm⟩ => absurd hm (hout c' m')⟩,
    fun c₁ _ m _ h₁ _ => absurd h₁ (hout c₁ m)⟩

omit [DecidableEq Client] in
theorem Worker.nobody (h : Worker activity false) (c : Client) (m : Merger) :
    activity c ≠ .merging m ∧ activity c ≠ .looping m :=
  ⟨fun he => Bool.false_ne_true (h.flag.mpr ⟨c, m, by rw [he]; rfl⟩),
    fun he => Bool.false_ne_true (h.flag.mpr ⟨c, m, by rw [he]; rfl⟩)⟩

theorem Worker.enter (h : Worker activity false) {m : Merger} (ha : a.merger? = some m) :
    Worker (Function.update activity c a) true := by
  have hout : ∀ c' m', c' ≠ c → (Function.update activity c a c').merger? ≠ some m' := by
    intro c' m' hne hm
    rw [Function.update_of_ne hne] at hm
    exact Bool.false_ne_true (h.flag.mpr ⟨c', m', hm⟩)
  refine ⟨⟨fun _ => ⟨c, m, by simpa using ha⟩, fun _ => rfl⟩, ?_⟩
  intro c₁ c₂ m₁ m₂ h₁ h₂
  have e₁ : c₁ = c := by_contra fun hne => hout c₁ m₁ hne h₁
  have e₂ : c₂ = c := by_contra fun hne => hout c₂ m₂ hne h₂
  rw [e₁, e₂]

/-- A client inside the loop moves on inside of it. -/
theorem Worker.stay (h : Worker activity flag) {m m' : Merger} (hc : (activity c).merger? = some m)
    (ha : a.merger? = some m') : Worker (Function.update activity c a) flag := by
  have hf : flag = true := h.flag.mpr ⟨c, m, hc⟩
  have := (h.leave hc).enter (c := c) ha
  rwa [Function.update_idem, ← hf] at this

omit [DecidableEq Client] in
theorem Jobs.shrink (h : Jobs activity op parts) {activity' : Client → Activity}
    (ho : op'.parallelFileOffsets = op.parallelFileOffsets) (ht : op'.targetDir = op.targetDir)
    (hj : ∀ c job, (activity' c).job? = some job → (activity c).job? = some job) :
    Jobs activity' op' parts := by
  have hp : ∀ p, partIndex op' p = partIndex op p := fun p => by simp only [partIndex, ho]
  refine ⟨fun c job hc hne => ?_, fun c c' job job' i hc hc' => ?_⟩
  · simp only [hp]
    exact h.known c job (hj c job hc) (ht ▸ hne)
  · simp only [hp]
    exact h.apart c c' job job' i (hj c job hc) (hj c' job' hc')

theorem job?_update {job : Job} (ha : ∀ job, a.job? = some job → (activity c).job? = some job)
    (h : (Function.update activity c a c').job? = some job) : (activity c').job? = some job := by
  rw [Function.update_apply] at h
  split at h
  · rename_i he; exact he ▸ ha job h
  · exact h

theorem Activity.merger?_job? {m : Merger} (h : a.merger? = some m) : a.job? = some m.job := by
  cases a with
  | idle | transferring => cases h
  | looping | merging => cases h; rfl

variable {s : System Client} {m : Merger} {i : Nat}

theorem Jobs.take (h : Jobs activity op parts) (hh : Handed rootDir name size op parts)
    (hg : Grows op op') (ht : op.targetDir ≠ []) {job : Job}
    (hp : job.copyParam.partOffset = op.parallelFileOffset) :
    Jobs (Function.update activity c (.transferring job)) op' (parts ++ [job.copyParam]) := by
  have hnew : partIndex op' job.copyParam = some parts.length := by
    rw [hg.partIndex, hh.partIndex_next hp, if_pos hp.symm, hh.offsets, length_map]; rfl
  -- the jobs of the others keep their index, which is below the new one
  have hold : ∀ c' job', (activity c').job? = some job' → ∃ i, partIndex op' job'.copyParam = some i ∧
      partIndex op job'.copyParam = some i ∧ parts[i]? = some job'.copyParam := by
    intro c' job' hj
    obtain ⟨i, hi, hpart⟩ := h.known c' job' hj ht
    exact ⟨i, by rw [hg.partIndex, hi]; rfl, hi, hpart⟩
  have hcases : ∀ c' job', (Function.update activity c (.transferring job) c').job? = some job' →
      (c' = c ∧ job' = job) ∨ (activity c').job? = some job' := by
    intro c' job' hj
    rw [Function.update_apply] at hj
    split at hj
    · rename_i he; exact .inl ⟨he, (Option.some.inj hj).symm⟩
    · exact .inr hj
  refine ⟨fun c' job' hj _ => ?_, fun c₁ c₂ job₁ job₂ i h₁ h₂ hi₁ hi₂ => ?_⟩
  · rcases hcases c' job' hj with ⟨rfl, rfl⟩ | hj
    · exact ⟨parts.length, hnew, by simp⟩
    · obtain ⟨i, hi, -, hpart⟩ := hold c' job' hj
      exact ⟨i, hi, by rw [getElem?_append_left (List.getElem?_eq_some_iff.mp hpart).1, hpart]⟩
  · have hne : ∀ c' job', (activity c').job? = some job' →
        partIndex op' job'.copyParam ≠ some parts.length := by
      intro c' job' hj he
      obtain ⟨k, hk, hk', -⟩ := hold c' job' hj
      have := hh.partIndex_lt hk'
      rw [hk, Option.some.injEq] at he
      omega
    rcases hcases c₁ job₁ h₁ with ⟨e₁, rfl⟩ | g₁ <;> rcases hcases c₂ job₂ h₂ with ⟨e₂, rfl⟩ | g₂
    · rw [e₁, e₂]
    · exact absurd (hi₂.trans (hi₁.symm.trans hnew)) (hne c₂ job₂ g₂)
    · exact absurd (hi₁.trans (hi₂.symm.trans hnew)) (hne c₁ job₁ g₁)
    · obtain ⟨k₁, hk₁, ho₁, -⟩ := hold c₁ job₁ g₁
      obtain ⟨k₂, hk₂, ho₂, -⟩ := hold c₂ job₂ g₂
      have e₁ : k₁ = i := Option.some.inj (hk₁.symm.trans hi₁)
      have e₂ : k₂ = i := Option.some.inj (hk₂.symm.trans hi₂)
      exact h.apart c₁ c₂ job₁ job₂ i g₁ g₂ (e₁ ▸ ho₁) (e₂ ▸ ho₂)

/-! ## What a step does to the clients -/

omit [DecidableEq Client] in
theorem Jobs.part (h : Jobs activity op parts) (hh : Handed rootDir name size op parts) {job : Job}
    (hj : (activity c).job? = some job) (hi : partIndex op job.copyParam = some i) :
    parts[i]? = some job.copyParam := by
  have ht : op.targetDir ≠ [] := by
    intro he
    have := hh.partIndex_lt hi
    simp [hh.plain he] at this
  obtain ⟨k, hk, hp⟩ := h.known c job hj ht
  rwa [Option.some.inj (hk.symm.trans hi)] at hp

omit [DecidableEq Client] in
theorem Clients.parts_of_inside (h : Clients s) (hh : Handed rootDir name size s.op s.parts)
    (hm : (s.activity c).merger? = some m) : s.parts[m.index]? = some m.job.copyParam :=
  h.jobs.part hh (Activity.merger?_job? hm) (h.inside c m hm).1

theorem transferring_update {job : Job} (ha : ∀ job, a ≠ .transferring job)
    (h : Function.update activity c a c' = .transferring job) :
    c' ≠ c ∧ activity c' = .transferring job := by
  rw [Function.update_apply] at h
  split at h
  · exact absurd h (ha job)
  · rename_i hne; exact ⟨hne, h⟩

/-- A client is through with its job and nothing was reported. -/
theorem Clients.idle (h : Clients s) (c : Client) (b : Bool) :
    Clients { s with activity := Function.update s.activity c .idle, cancel := b } where
  jobs := h.jobs.shrink rfl rfl fun _ _ => job?_update (fun _ hj => nomatch hj)
  marked := h.marked
  waiting := fun c' job i hj => h.waiting c' job i (transferring_update (by simp) hj).2
  inside := fun c' m hm => h.inside c' m (merger?_update rfl hm).2
  returned := h.returned
  raised := h.raised

theorem Clients.stay (h : Clients s) (hc : (s.activity c).merger? = some m)
    (ha : a.merger? = some m) (merged : Nat) (ops : List LocalOp) :
    Clients { s with
      op := { s.op with parallelFileMerged := merged }
      activity := Function.update s.activity c a, localOps := ops } where
  jobs := h.jobs.shrink rfl rfl fun _ _ => job?_update fun job hj => by
    rw [Activity.merger?_job? hc, ← Activity.merger?_job? ha, hj]
  marked := h.marked
  waiting := fun c' job i hj => h.waiting c' job i
    (transferring_update (fun _ hj => by rw [hj] at ha; cases ha) hj).2
  inside := by
    intro c' m' hm
    simp only [Function.update_apply] at hm
    split at hm
    · obtain rfl : m = m' := Option.some.inj (ha.symm.trans hm)
      exact h.inside c m hc
    · exact h.inside c' m' hm
  returned := h.returned
  raised := h.raised

/-- The client inside the loop leaves it: nobody is inside afterwards. -/
theorem Clients.leave (h : Clients s) (hw : Worker s.activity flag)
    (hc : (s.activity c).merger? = some m) : Clients (s.leave c m) where
  jobs := h.jobs.shrink rfl rfl fun _ _ => job?_update (fun _ hj => nomatch hj)
  marked := h.marked
  waiting := fun c' job i hj => h.waiting c' job i (transferring_update (by simp) hj).2
  inside := fun c' m' hm => (Bool.false_ne_true ((hw.leave hc).flag.mpr ⟨c', m', hm⟩)).elim
  returned := by
    intro i hi
    rcases mem_append.mp hi with hi | hi
    · exact h.returned i hi
    · obtain ⟨-, hr, -, hn⟩ := h.inside c m hc
      rw [mem_singleton.mp hi]
      exact ⟨by simp [System.leave, hr], hn⟩
  raised := h.raised

theorem Clients.raise (h : Clients s) (hw : Worker s.activity flag)
    (hc : (s.activity c).merger? = some m) (e : DoneError) : Clients (s.raise c m e) := by
  obtain ⟨-, hr, hret, -⟩ := h.inside c m hc
  refine ⟨?_, h.marked, ?_, ?_, ?_, ?_⟩
  · exact h.jobs.shrink rfl rfl fun _ _ => job?_update (fun _ hj => nomatch hj)
  · exact fun c' job i hj => h.waiting c' job i (transferring_update (by simp) hj).2
  · exact fun c' m' hm => (Bool.false_ne_true ((hw.leave hc).flag.mpr ⟨c', m', hm⟩)).elim
  · intro i hi
    obtain ⟨hs, hn⟩ := h.returned i hi
    refine ⟨hs, fun e' he => ?_⟩
    rcases mem_append.mp he with he | he
    · exact hn e' he
    · simp only [mem_singleton, Prod.mk.injEq] at he
      exact hret (he.1 ▸ hi)
  · intro i e' he
    rcases mem_append.mp he with he | he
    · exact h.raised i e' he
    · simp only [mem_singleton, Prod.mk.injEq] at he
      simp only [System.raise, he.1, hr, Option.isSome_some]

section Report

variable {job : Job} {n : Int}

omit [DecidableEq Client] in
theorem Clients.report_marked (h : Clients s) (hlt : i < s.op.parallelFileDones.length) (k : Nat) :
    (s.report i n).op.parallelFileDones[k]? = some true ↔ ((s.report i n).reported k).isSome := by
  simp only [System.report, getElem?_set, Function.update_apply]
  by_cases hk : k = i
  · simp [hk, hlt]
  · simp [hk, Ne.symm hk, h.marked]

omit [DecidableEq Client] in
/-- When a part is reported all other clients keep what they had, as none of
them works on that part. -/
theorem Clients.report_others (h : Clients s) (hj : s.activity c = .transferring job)
    (hi : partIndex s.op job.copyParam = some i) (hne : c' ≠ c) :
    (∀ job' k, s.activity c' = .transferring job' → partIndex s.op job'.copyParam = some k →
      (s.report i n).reported k = none) ∧
    (∀ m', (s.activity c').merger? = some m' → m'.index ≠ i ∧
      (s.report i n).reported m'.index = some m'.transferred) := by
  have hjob : (s.activity c).job? = some job := by rw [hj]; rfl
  refine ⟨fun job' k hj' hk => ?_, fun m' hm => ?_⟩
  · have hki : k ≠ i := by
      rintro rfl
      exact hne (h.jobs.apart c' c job' job k (by rw [hj']; rfl) hjob hk hi)
    simpa [System.report, Function.update_of_ne hki] using h.waiting c' job' k hj' hk
  · obtain ⟨hk, hr, -, -⟩ := h.inside c' m' hm
    have hki : m'.index ≠ i := fun he =>
      hne (h.jobs.apart c' c m'.job job i (Activity.merger?_job? hm) hjob (he ▸ hk) hi)
    exact ⟨hki, by simpa [System.report, Function.update_of_ne hki] using hr⟩

omit [DecidableEq Client] in
/-- Reported parts stay reported. -/
theorem report_isSome {k : Nat} (hk : (s.reported k).isSome) :
    ((s.report i n).reported k).isSome := by
  simp only [System.report, Function.update_apply]
  split
  · rfl
  · exact hk

/-- A part is reported while somebody else is merging. -/
theorem Clients.report (h : Clients s) (hlt : i < s.op.parallelFileDones.length)
    (hj : s.activity c = .transferring job) (hi : partIndex s.op job.copyParam = some i) :
    Clients { s.report i n with
      activity := Function.update s.activity c .idle, returned := s.returned ++ [i] } := by
  have hnone := h.waiting c job i hj hi
  refine ⟨?_, h.report_marked hlt, ?_, ?_, ?_, ?_⟩
  · exact h.jobs.shrink rfl rfl fun _ _ => job?_update (fun _ hj => nomatch hj)
  · intro c' job' k hj' hk
    obtain ⟨hne, hj'⟩ := transferring_update (by simp) hj'
    exact (h.report_others hj hi hne).1 job' k hj' hk
  · intro c' m' hm
    obtain ⟨hne, hm⟩ := merger?_update rfl hm
    obtain ⟨hki, hr⟩ := (h.report_others (n := n) hj hi hne).2 m' hm
    obtain ⟨hk, -, hret, hra⟩ := h.inside c' m' hm
    exact ⟨hk, hr, by simp [hret, hki], hra⟩
  · intro k hk
    rcases mem_append.mp hk with hk | hk
    · obtain ⟨hs, hra⟩ := h.returned k hk
      exact ⟨report_isSome hs, hra⟩
    · rw [mem_singleton.mp hk]
      refine ⟨by simp [System.report], fun e he => ?_⟩
      have := h.raised i e he
      simp [hnone] at this
  · exact fun k e he => report_isSome (h.raised k e he)

/-- A part is reported and its client takes the flag. -/
theorem Clients.enter (h : Clients s) (hlt : i < s.op.parallelFileDones.length)
    (hj : s.activity c = .transferring job) (hi : partIndex s.op job.copyParam = some i)
    (hm : m.job = job) (hmi : m.index = i) (hmn : m.transferred = n) :
    Clients ((s.report i n).enter c m) := by
  have hnone := h.waiting c job i hj hi
  refine ⟨?_, h.report_marked hlt, ?_, ?_, ?_, ?_⟩
  · refine h.jobs.shrink rfl rfl fun _ _ => job?_update fun job' hj' => ?_
    have hj'' : (s.activity c).job? = some job := by rw [hj]; rfl
    exact hj''.trans (hm ▸ hj')
  · intro c' job' k hj' hk
    obtain ⟨hne, hj'⟩ := transferring_update (by simp) hj'
    exact (h.report_others hj hi hne).1 job' k hj' hk
  · intro c' m' hm'
    simp only [System.enter, Function.update_apply] at hm'
    split at hm'
    · cases hm'
      refine ⟨hm ▸ hmi ▸ hi, by simp [System.enter, System.report, hmi, hmn], fun hr => ?_, fun e he => ?_⟩
      · have := (h.returned _ hr).1
        simp [hmi, hnone] at this
      · have := h.raised _ e he
        simp [hmi, hnone] at this
    · rename_i hne
      obtain ⟨hk, -, hret, hra⟩ := h.inside c' m' hm'
      exact ⟨hk, ((h.report_others hj hi hne).2 m' hm').2, hret, hra⟩
  · exact fun k hk => ⟨report_isSome (h.returned k hk).1, (h.returned k hk).2⟩
  · exact fun k e he => report_isSome (h.raised k e he)

end Report

/-- Without a target directory there are no parts, and a job has none. -/
theorem Clients.takeWhole (h : Clients s) (hidx : ∀ p, partIndex s.op p = none)
    (ht : s.op.targetDir = []) (job : Job) :
    Clients { s with activity := Function.update s.activity c (.transferring job) } where
  jobs := ⟨fun _ _ _ hne => absurd ht hne, fun _ _ job' _ i _ _ hi =>
    absurd ((hidx job'.copyParam).symm.trans hi) (by simp)⟩
  marked := h.marked
  waiting := fun _ job' i _ hi => absurd ((hidx job'.copyParam).symm.trans hi) (by simp)
  inside := fun c' m hm => h.inside c' m (merger?_update rfl hm).2
  returned := h.returned
  raised := h.raised

theorem Clients.take (h : Clients s) (hh : Handed rootDir name size s.op s.parts)
    (hg : Grows s.op op') (ht : s.op.targetDir ≠ []) (job : Job)
    (hp : job.copyParam.partOffset = s.op.parallelFileOffset) :
    Clients { s with
      op := op', activity := Function.update s.activity c (.transferring job)
      parts := s.parts ++ [job.copyParam] } := by
  have hunreported : s.reported s.parts.length = none := by
    rw [← Option.not_isSome_iff_eq_none, ← h.marked, ← hh.dones]
    simp
  have hkeep : ∀ (job' : Job) k, partIndex op' job'.copyParam = some k →
      partIndex s.op job'.copyParam = some k ∨ k = s.parts.length := by
    intro job' k hk
    rw [hg.partIndex] at hk
    cases hi : partIndex s.op job'.copyParam with
    | some i => rw [hi] at hk; exact .inl hk
    | none =>
      rw [hi] at hk
      simp only [Option.none_or, Option.ite_none_right_eq_some, Option.some.injEq, hh.offsets,
        length_map] at hk
      exact .inr hk.2.symm
  refine ⟨h.jobs.take hh hg ht hp, ?_, ?_, ?_, h.returned, h.raised⟩
  · intro i
    rw [← h.marked, hg.dones]
    by_cases hi : i < s.op.parallelFileDones.length
    · rw [getElem?_append_left hi]
    · have hnone : s.op.parallelFileDones[i]? = none := getElem?_eq_none (by omega)
      rw [getElem?_append_right (by omega), hnone]
      cases i - s.op.parallelFileDones.length <;> simp
  · intro c' job' k hj hk
    rcases hkeep job' k hk with hk' | rfl
    · simp only [Function.update_apply] at hj
      split at hj
      · cases hj
        rw [hh.partIndex_next hp] at hk'
        cases hk'
      · exact h.waiting c' job' k hj hk'
    · exact hunreported
  · intro c' m hm
    obtain ⟨hi, hrest⟩ := h.inside c' m (merger?_update rfl hm).2
    exact ⟨by rw [hg.partIndex, hi]; rfl, hrest⟩

end NetBox.Parallel.Merge
