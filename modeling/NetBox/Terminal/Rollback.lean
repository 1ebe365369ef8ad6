import NetBox.Terminal.SpeedLimit

/-! # Rolling a transfer back

A `TFileOperationProgressType` adds what it transfers and skips to its own totals and to
those of its parent, which does the same. `RollbackTransfer` takes the bytes of the file
out of all of them again, while other children of the ancestors go on adding theirs.

An object comes with its ancestors, the nearest one first. The samples from which the speed
is computed and the calls back to the user interface are left out.
-/
namespace NetBox.Terminal.Rollback
open Base.Text List

structure Progress extends SpeedLimit.Progress where
  totalTransferred : Int := 0
  totalSize : Int := 0
  totalSizeSet : Bool := false
  originalTotalSize : Int := 0

/-- An object and its ancestors. -/
abbrev Chain := List Progress

/-- Do with the object what is done with one that has no ancestors. -/
def alone (f : SpeedLimit.Progress → SpeedLimit.Progress) (p : Progress) : Progress :=
  { p with toProgress := f p.toProgress }

def addSkipped (size : Int) : Chain → Chain
  | [] => []
  | p :: parents => alone (SpeedLimit.addSkipped · size) p :: addSkipped size parents

def addTransferredToTotals (size : Int) : Chain → Chain
  | [] => []
  | p :: parents =>
    { p with totalTransferred := p.totalTransferred + size } :: addTransferredToTotals size parents

def addTotalSize (size : Int) : Chain → Chain
  | [] => []
  | p :: parents =>
    if size ≠ 0 then
      { p with
        originalTotalSize := if p.totalSize = 0 then size else p.originalTotalSize
        totalSize := p.totalSize + size } :: addTotalSize size parents
    else p :: parents

def rollbackTransferFromTotals (transferredSize skippedSize : Int) : Chain → Chain
  | [] => []
  | p :: parents =>
    { p with
      totalTransferred := p.totalTransferred - transferredSize
      totalSkipped := p.totalSkipped - skippedSize } ::
        rollbackTransferFromTotals transferredSize skippedSize parents

/-- Change the object itself. -/
def atHead (f : Progress → Progress) : Chain → Chain
  | [] => []
  | p :: parents => f p :: parents

/-- What `ClearTransfer` does to the ancestors. -/
def skipRest (p : Progress) (parents : Chain) : Chain :=
  if 0 < p.transferSize ∧ p.transferredSize < p.transferSize then
    addSkipped (p.transferSize - p.transferredSize) parents
  else parents

def setFile (fileName : UnicodeString) (fileInProgress : Bool) : Chain → Chain
  | [] => []
  | p :: parents => alone (SpeedLimit.setFile · fileName fileInProgress) p :: skipRest p parents

def addTransferred (size : Int) (addToTotals : Bool) : Chain → Chain
  | [] => []
  | p :: parents =>
    let transferred := p.transferredSize + size
    let chain := atHead (fun p => { p with
        transferredSize := transferred
        transferSize := max p.transferSize transferred })
      (if transferred > p.transferSize ∧ p.totalSizeSet then
        addTotalSize (transferred - p.transferSize) (p :: parents) else p :: parents)
    if addToTotals then addTransferredToTotals size chain else chain

def addLocallyUsed (size : Int) (p : Progress) : Progress :=
  { p with
    locallyUsed := p.locallyUsed + size
    localSize := max p.localSize (p.locallyUsed + size) }

def addResumed (size : Int) (chain : Chain) : Chain :=
  atHead (addLocallyUsed size) (addTransferred size false
    (atHead (fun p => { p with skippedSize := p.skippedSize + size }) (addSkipped size chain)))

def rollbackTransfer : Chain → Chain
  | [] => []
  | p :: parents =>
    atHead (fun p => { p with
        skippedSize := 0
        transferredSize := 0
        transferSize := 0
        locallyUsed := 0 })
      (rollbackTransferFromTotals (p.transferredSize - p.skippedSize) p.skippedSize (p :: parents))

/-! ## Sequences of calls -/

/-- Calls on the object, and what another child adds to the totals of the ancestor at a
level and of those above it. -/
inductive Op
  | addTransferred (size : Int)
  | addResumed (size : Int)
  | other (level : Nat) (transferred skipped : Int)

def Op.isOther : Op → Bool
  | .other .. => true
  | _ => false

/-- Change the ancestors from a level on. -/
def atLevel (f : Chain → Chain) : Nat → Chain → Chain
  | 0, chain => f chain
  | _ + 1, [] => []
  | level + 1, p :: parents => p :: atLevel f level parents

def step (chain : Chain) : Op → Chain
  | .addTransferred size => addTransferred size true chain
  | .addResumed size => addResumed size chain
  | .other level transferred skipped =>
    atLevel (fun ancestors => addSkipped skipped (addTransferredToTotals transferred ancestors))
      (level + 1) chain

def totals (chain : Chain) : List (Int × Int) :=
  chain.map fun p => (p.totalTransferred, p.totalSkipped)

/-! ## What happens to the totals -/

/-- The same amounts on every level. -/
def shift (transferred skipped : Int) (l : List (Int × Int)) : List (Int × Int) :=
  l.map fun (a, b) => (a + transferred, b + skipped)

/-- The same amounts from a level on. -/
def shiftFrom (level : Nat) (transferred skipped : Int) (l : List (Int × Int)) :
    List (Int × Int) :=
  l.take level ++ shift transferred skipped (l.drop level)

theorem shift_shift (t s t' s' : Int) (l : List (Int × Int)) :
    shift t s (shift t' s' l) = shift (t' + t) (s' + s) l := by
  simp [shift, Int.add_assoc]

theorem shift_zero (l : List (Int × Int)) : shift 0 0 l = l := by simp [shift]

theorem shift_shiftFrom (t s t' s' : Int) (level : Nat) (l : List (Int × Int)) :
    shift t s (shiftFrom level t' s' l) = shiftFrom level t' s' (shift t s l) := by
  simp only [shift, shiftFrom, map_append, map_take, map_drop, map_map]
  congr 2
  apply map_congr_left
  intro x _
  simp only [Function.comp_apply, Prod.mk.injEq]
  omega

@[simp] theorem totals_addSkipped (size : Int) (chain : Chain) :
    totals (addSkipped size chain) = shift 0 size (totals chain) := by
  induction chain with
  | nil => rfl
  | cons p parents ih => simp_all [addSkipped, alone, SpeedLimit.addSkipped, totals, shift]

@[simp] theorem totals_addTransferredToTotals (size : Int) (chain : Chain) :
    totals (addTransferredToTotals size chain) = shift size 0 (totals chain) := by
  induction chain with
  | nil => rfl
  | cons p parents ih => simp_all [addTransferredToTotals, totals, shift]

@[simp] theorem totals_addTotalSize (size : Int) (chain : Chain) :
    totals (addTotalSize size chain) = totals chain := by
  induction chain with
  | nil => rfl
  | cons p parents ih =>
    unfold addTotalSize
    split <;> simp_all [totals]

@[simp] theorem totals_rollbackTransferFromTotals (t s : Int) (chain : Chain) :
    totals (rollbackTransferFromTotals t s chain) = shift (-t) (-s) (totals chain) := by
  induction chain with
  | nil => rfl
  | cons p parents ih => simp_all [rollbackTransferFromTotals, totals, shift, Int.sub_eq_add_neg]

/-- Changes of the object that leave its totals. -/
theorem totals_atHead {f : Progress → Progress}
    (hf : ∀ p, (f p).totalTransferred = p.totalTransferred ∧ (f p).totalSkipped = p.totalSkipped)
    (chain : Chain) : totals (atHead f chain) = totals chain := by
  cases chain with
  | nil => rfl
  | cons p parents => simp [atHead, totals, hf]

theorem totals_atLevel {f : Chain → Chain} {t s : Int}
    (hf : ∀ chain, totals (f chain) = shift t s (totals chain)) (level : Nat) (chain : Chain) :
    totals (atLevel f level chain) = shiftFrom level t s (totals chain) := by
  induction level generalizing chain with
  | zero => exact hf chain
  | succ level ih =>
    cases chain with
    | nil => rfl
    | cons p parents =>
      have hparents := ih parents
      simp only [totals, map_cons, atLevel, shiftFrom, take_succ_cons, drop_succ_cons,
        cons_append] at hparents ⊢
      rw [hparents]

/-- What the object keeps of its file. -/
def fileSizes (chain : Chain) : Option (Int × Int) :=
  chain.head?.map fun p => (p.transferredSize, p.skippedSize)

theorem totals_addTransferred (size : Int) (addToTotals : Bool) (chain : Chain) :
    totals (addTransferred size addToTotals chain) =
      shift (if addToTotals then size else 0) 0 (totals chain) := by
  cases chain with
  | nil => rfl
  | cons p parents =>
    unfold addTransferred
    dsimp only
    split <;> split <;> simp [totals_atHead, shift_zero, *]

theorem fileSizes_addTransferred (size : Int) (addToTotals : Bool) (chain : Chain) :
    fileSizes (addTransferred size addToTotals chain) =
      (fileSizes chain).map fun (t, s) => (t + size, s) := by
  cases chain with
  | nil => rfl
  | cons p parents =>
    cases addToTotals <;>
      simp only [addTransferred, addTotalSize, Bool.false_eq_true, if_false, if_true] <;>
      split <;> (try split) <;> simp [atHead, addTransferredToTotals, fileSizes]

theorem totals_addResumed (size : Int) (chain : Chain) :
    totals (addResumed size chain) = shift 0 size (totals chain) := by
  unfold addResumed
  rw [totals_atHead, totals_addTransferred, totals_atHead, totals_addSkipped]
  · exact shift_zero _
  · intro p
    exact ⟨rfl, rfl⟩
  · intro p
    exact ⟨rfl, rfl⟩

theorem fileSizes_addResumed (size : Int) (chain : Chain) :
    fileSizes (addResumed size chain) =
      (fileSizes chain).map fun (t, s) => (t + size, s + size) := by
  have hlocal : ∀ c, fileSizes (atHead (addLocallyUsed size) c) = fileSizes c := by
    intro c
    cases c <;> rfl
  unfold addResumed
  rw [hlocal, fileSizes_addTransferred]
  cases chain <;> rfl

theorem totals_other (level : Nat) (t s : Int) (chain : Chain) :
    totals (step chain (.other level t s)) = shiftFrom (level + 1) t s (totals chain) := by
  apply totals_atLevel
  intro ancestors
  rw [totals_addSkipped, totals_addTransferredToTotals, shift_shift]
  simp

/-- A run is ahead of another one by what its object has transferred and resumed. -/
structure Ahead (chain other : Chain) (transferred resumed : Int) : Prop where
  totals : totals chain = shift transferred resumed (totals other)
  file : fileSizes chain = some (transferred + resumed, resumed)

variable {chain other : Chain}

/-- A call of the object takes its run further ahead, one of another child takes both. -/
theorem Ahead.step {t s : Int} (h : Ahead chain other t s) (op : Op) :
    ∃ t' s', Ahead (step chain op) (if op.isOther then Rollback.step other op else other) t' s' := by
  cases op with
  | addTransferred size =>
    refine ⟨t + size, s, ?_, ?_⟩
    · simp [Rollback.step, Op.isOther, totals_addTransferred, h.totals, shift_shift]
    · simp [Rollback.step, fileSizes_addTransferred, h.file, Int.add_right_comm]
  | addResumed size =>
    refine ⟨t, s + size, ?_, ?_⟩
    · simp [Rollback.step, Op.isOther, totals_addResumed, h.totals, shift_shift]
    · simp [Rollback.step, fileSizes_addResumed, h.file, Int.add_assoc]
  | other level t' s' =>
    refine ⟨t, s, ?_, ?_⟩
    · simp only [Op.isOther, if_true, totals_other, h.totals, shift_shiftFrom]
    · rw [← h.file]
      cases chain <;> rfl

theorem Ahead.run (ops : List Op) {t s : Int} (h : Ahead chain other t s) :
    ∃ t' s', Ahead (ops.foldl Rollback.step chain)
      ((ops.filter Op.isOther).foldl Rollback.step other) t' s' := by
  induction ops generalizing chain other t s with
  | nil => exact ⟨t, s, h⟩
  | cons op ops ih =>
    obtain ⟨t', s', hstep⟩ := h.step op
    have hrun := ih hstep
    cases hop : op.isOther <;> simp_all

theorem Ahead.rollback {t s : Int} (h : Ahead chain other t s) :
    Rollback.totals (rollbackTransfer chain) = Rollback.totals other := by
  cases chain with
  | nil => cases h.file
  | cons p parents =>
    have hfile := h.file
    simp only [fileSizes, head?_cons, Option.map_some, Option.some.injEq,
      Prod.mk.injEq] at hfile
    have ht : t + -(t + s - s) = 0 := by omega
    have hs : s + -s = 0 := by omega
    simp only [rollbackTransfer]
    rw [totals_atHead, totals_rollbackTransferFromTotals, h.totals, shift_shift, hfile.1, hfile.2,
      ht, hs, shift_zero]
    intro q
    exact ⟨rfl, rfl⟩

theorem fileSizes_setFile (fileName : UnicodeString) (fileInProgress : Bool) (p : Progress)
    (parents : Chain) : fileSizes (setFile fileName fileInProgress (p :: parents)) = some (0, 0) := by
  simp [setFile, alone, fileSizes, SpeedLimit.setFile, SpeedLimit.clearTransfer]

/-- A rollback takes out exactly what the file added: after any transfers and resumes of
an object since it was given its file, among any additions by other children of its ancestors,
the totals of the object and of every ancestor are those of the run in which only the other
children have added anything. -/
theorem rollbackTransfer_totals (fileName : UnicodeString) (fileInProgress : Bool)
    (chain : Chain) (ops : List Op) :
    totals (rollbackTransfer (ops.foldl step (setFile fileName fileInProgress chain))) =
      totals ((ops.filter Op.isOther).foldl step (setFile fileName fileInProgress chain)) := by
  cases chain with
  | nil =>
    have hnil : ∀ ops : List Op, ops.foldl step [] = [] := by
      intro ops
      induction ops with
      | nil => rfl
      | cons op ops ih => cases op <;> exact ih
    simp only [setFile, hnil, rollbackTransfer]
  | cons p parents =>
    have hstart : Ahead (setFile fileName fileInProgress (p :: parents))
        (setFile fileName fileInProgress (p :: parents)) 0 0 :=
      ⟨(shift_zero _).symm, fileSizes_setFile ..⟩
    obtain ⟨t, s, hrun⟩ := hstart.run ops
    exact hrun.rollback

end NetBox.Terminal.Rollback
