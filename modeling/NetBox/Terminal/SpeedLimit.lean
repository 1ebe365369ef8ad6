import NetBox.Base.Text
import NetBox.Lib.Run
import Mathlib.Tactic.Common
import Mathlib.Algebra.Order.BigOperators.Group.List
import Mathlib.Algebra.Order.Ring.Int

/-! # The transfer speed limit

`AdjustToCPSLimit` grants a part of what is asked for, out of a budget for the
second on the clock. The budget is filled up when the second is not the one of
the last call. Starting a file forgets that second, so that the budget is filled
up again.

What the clock reads is an input. The progress of a parent and the calls back to
the user interface are left out.
-/

namespace NetBox.Terminal.SpeedLimit
open Base.Text Lib.Run List

inductive OperationSide
  | osLocal
  | osRemote
  | osCurrent
deriving DecidableEq

/-- `TFileOperationProgressType` as `DoClear` leaves it. -/
structure Progress where
  side : OperationSide
  fullFileName : UnicodeString := []
  fileName : UnicodeString := []
  fileInProgress : Bool := false
  localSize : Int := 0
  transferSize : Int := 0
  locallyUsed : Int := 0
  skippedSize : Int := 0
  transferredSize : Int := 0
  totalSkipped : Int := 0
  transferringFile : Bool := false
  lastSecond : Nat := 0
  remainingCPS : Int := 0
deriving DecidableEq

def addSkipped (p : Progress) (size : Int) : Progress :=
  { p with totalSkipped := p.totalSkipped + size }

def clearTransfer (p : Progress) : Progress :=
  let p :=
    if 0 < p.transferSize ∧ p.transferredSize < p.transferSize then
      addSkipped p (p.transferSize - p.transferredSize)
    else p
  { p with
    localSize := 0
    transferSize := 0
    locallyUsed := 0
    skippedSize := 0
    transferredSize := 0
    transferringFile := false
    lastSecond := 0 }

def setFile (p : Progress) (fileName : UnicodeString) (fileInProgress : Bool) : Progress :=
  clearTransfer { p with
    fullFileName := fileName
    fileName := if p.side = .osRemote then unixExtractFileName fileName else fileName
    fileInProgress }

/-- One turn of the loop, up to the question whether anything is left. -/
def atSecond (limit : UInt64) (p : Progress) (second : Nat) : Progress :=
  if second ≠ p.lastSecond then
    { p with remainingCPS := limit.toBitVec.toInt, lastSecond := second }
  else p

def secondOf (tick : Nat) : Nat := tick / 1000

/-- The loop, with what `GetTickCount` gives in each turn. Nothing when it does
not take just so many turns. -/
def waitForCPS (limit : UInt64) : List Nat → Progress → Option Progress
  | [], _ => none
  | tick :: ticks, p =>
    let p := atSecond limit p (secondOf tick)
    if p.remainingCPS = 0 then waitForCPS limit ticks p
    else if ticks = [] then some p
    else none

/-- The amount that is granted, with what is left of the budget. -/
def adjustToCPSLimit (limit : UInt64) (p : Progress) (size : Int) (ticks : List Nat) :
    Option (Progress × Int) :=
  if 0 < limit then
    (waitForCPS limit ticks p).map fun p =>
      let size := if p.remainingCPS < size then p.remainingCPS else size
      ({ p with remainingCPS := p.remainingCPS - size }, size)
  else if ticks = [] then some (p, size)
  else none

/-! ## Histories -/

inductive Event
  | adjust (size : Int) (ticks : List Nat)
  | setFile (fileName : UnicodeString) (fileInProgress : Bool)
  | clearTransfer
deriving DecidableEq

def Event.ticks : Event → List Nat
  | .adjust _ ticks => ticks
  | .setFile _ _ | .clearTransfer => []

def Event.startsFile : Event → Bool
  | .adjust _ _ => false
  | .setFile _ _ | .clearTransfer => true

/-- The second in which a call returns, and the size it asks for. -/
def Event.call? : Event → Option (Nat × Int)
  | .adjust size ticks => ticks.getLast?.map fun tick => (secondOf tick, size)
  | .setFile _ _ | .clearTransfer => none

/-- What was granted, when, and what had been asked for. -/
structure Grant where
  second : Nat
  size : Int
  amount : Int
deriving DecidableEq

def Grant.call (g : Grant) : Nat × Int := (g.second, g.size)

structure State where
  progress : Progress
  grants : List Grant := []
deriving DecidableEq

def step (limit : UInt64) (s : State) : Event → Option State
  | .adjust size ticks =>
    (adjustToCPSLimit limit s.progress size ticks).map fun (progress, amount) =>
      ⟨progress, s.grants ++ [⟨secondOf (ticks.getLast?.getD 0), size, amount⟩]⟩
  | .setFile fileName fileInProgress =>
    some { s with progress := SpeedLimit.setFile s.progress fileName fileInProgress }
  | .clearTransfer => some { s with progress := SpeedLimit.clearTransfer s.progress }

def run (limit : UInt64) (s : State) (events : List Event) : Option State :=
  events.foldlM (step limit) s

def grantedIn (second : Nat) (grants : List Grant) : Int :=
  ((grants.filter fun g => g.second == second).map Grant.amount).sum

/-- What the calls that return in this second ask for. -/
def askedIn (second : Nat) (events : List Event) : Int :=
  (((events.filterMap Event.call?).filter fun call => call.1 == second).map Prod.snd).sum

/-- A call returns in this second. -/
def Event.CallIn (second : Nat) (e : Event) : Prop :=
  e.call?.map Prod.fst = some second

/-- A file was started after a call that returned in this second. -/
def Pending (second : Nat) (events : List Event) : Prop :=
  ∃ x e, [x, e].Sublist events ∧ x.CallIn second ∧ e.startsFile = true

/-- A file was started between two calls that returned in this second. -/
def Split (second : Nat) (events : List Event) : Prop :=
  ∃ x e y, [x, e, y].Sublist events ∧ x.CallIn second ∧ e.startsFile = true ∧ y.CallIn second

/-! ### One more event -/

variable {e : Event}

section
variable {second : Nat} {events : List Event}

theorem concat_sublist_concat {α : Type} {l m : List α} {a b : α} :
    (l ++ [a]).Sublist (m ++ [b]) ↔ (l ++ [a]).Sublist m ∨ a = b ∧ l.Sublist m := by
  have h : (a :: l.reverse).Sublist (b :: m.reverse) ↔
      (a :: l.reverse).Sublist m.reverse ∨ a = b ∧ l.reverse.Sublist m.reverse :=
    cons_sublist_cons'
  have hconcat : ∀ (x : α) (l : List α), x :: l.reverse = (l ++ [x]).reverse := by simp
  rwa [hconcat, hconcat, reverse_sublist, reverse_sublist, reverse_sublist] at h

theorem split_concat (second : Nat) (events : List Event) (e : Event) :
    Split second (events ++ [e]) ↔ Split second events ∨ e.CallIn second ∧ Pending second events := by
  constructor
  · intro ⟨x, f, y, hsub, hx, hf, hy⟩
    rcases (concat_sublist_concat (l := [x, f])).mp hsub with hsub | ⟨rfl, hpre⟩
    · exact .inl ⟨x, f, y, hsub, hx, hf, hy⟩
    · exact .inr ⟨hy, x, f, hpre, hx, hf⟩
  · intro h
    rcases h with ⟨x, f, y, hsub, hx, hf, hy⟩ | ⟨he, x, f, hsub, hx, hf⟩
    · exact ⟨x, f, y, hsub.trans (sublist_append_left _ _), hx, hf, hy⟩
    · exact ⟨x, f, e, (concat_sublist_concat (l := [x, f])).mpr (.inr ⟨rfl, hsub⟩), hx, hf, he⟩

theorem pending_concat (second : Nat) (events : List Event) (e : Event) :
    Pending second (events ++ [e]) ↔
      Pending second events ∨ e.startsFile = true ∧ ∃ x ∈ events, x.CallIn second := by
  constructor
  · intro ⟨x, f, hsub, hx, hf⟩
    rcases (concat_sublist_concat (l := [x])).mp hsub with hsub | ⟨rfl, hpre⟩
    · exact .inl ⟨x, f, hsub, hx, hf⟩
    · exact .inr ⟨hf, x, singleton_sublist.mp hpre, hx⟩
  · intro h
    rcases h with ⟨x, f, hsub, hx, hf⟩ | ⟨he, x, hmem, hx⟩
    · exact ⟨x, f, hsub.trans (sublist_append_left _ _), hx, hf⟩
    · exact ⟨x, e, (concat_sublist_concat (l := [x])).mpr
        (.inr ⟨rfl, singleton_sublist.mpr hmem⟩), hx, he⟩

theorem Pending.call (h : Pending second events) : ∃ x ∈ events, x.CallIn second := by
  obtain ⟨x, f, hsub, hx, -⟩ := h
  exact ⟨x, hsub.subset mem_cons_self, hx⟩

theorem call?_of_startsFile (he : e.startsFile = true) : e.call? = none := by
  cases e with
  | adjust size ticks => cases he
  | setFile fileName fileInProgress => rfl
  | clearTransfer => rfl

theorem filterMap_call?_startsFile (he : e.startsFile = true) :
    (events ++ [e]).filterMap Event.call? = events.filterMap Event.call? := by
  simp [call?_of_startsFile he]

theorem calls_concat {grants : List Grant} {g : Grant}
    (h : grants.map Grant.call = events.filterMap Event.call?) (he : e.call? = some g.call) :
    (grants ++ [g]).map Grant.call = (events ++ [e]).filterMap Event.call? := by
  simp [h, he]

theorem askedIn_concat (second : Nat) (events : List Event) (e : Event) :
    askedIn second (events ++ [e]) = askedIn second events +
      match e.call? with
      | some call => if call.1 = second then call.2 else 0
      | none => 0 := by
  unfold askedIn
  rw [filterMap_append, filter_append, map_append, sum_append]
  congr 1
  cases hcall : e.call? with
  | none => simp [hcall]
  | some call => by_cases heq : call.1 = second <;> simp [hcall, heq]

theorem grantedIn_concat (second : Nat) (grants : List Grant) (g : Grant) :
    grantedIn second (grants ++ [g]) =
      grantedIn second grants + if g.second = second then g.amount else 0 := by
  unfold grantedIn
  rw [filter_append, map_append, sum_append]
  congr 1
  by_cases heq : g.second = second <;> simp [heq]

end

/-! ## What a call grants -/

theorem toInt_ne_zero {limit : UInt64} (h : 0 < limit) : limit.toBitVec.toInt ≠ 0 := by
  intro hzero
  have : limit.toBitVec = 0 := BitVec.eq_of_toInt_eq (by rw [hzero]; rfl)
  have : limit = 0 := UInt64.eq_of_toBitVec_eq this
  rw [this] at h
  cases h

theorem pos_of_toInt_ne {limit : UInt64} (h : limit.toBitVec.toInt ≠ 0) : 0 < limit := by
  by_contra hzero
  have : limit = 0 := UInt64.le_zero_iff.mp (UInt64.not_lt.mp hzero)
  rw [this] at h
  exact h rfl

theorem toInt_of_lt {limit : UInt64} (h : limit.toNat < 2 ^ 63) :
    limit.toBitVec.toInt = limit.toNat := by
  rw [BitVec.toInt_eq_toNat_cond, UInt64.toNat_toBitVec, if_pos (by omega)]

theorem toInt_neg_of_not_lt {limit : UInt64} (h : ¬limit.toNat < 2 ^ 63) :
    limit.toBitVec.toInt < 0 := by
  have := limit.toNat_lt
  rw [BitVec.toInt_eq_toNat_cond, UInt64.toNat_toBitVec, if_neg (by omega)]
  omega

theorem atSecond_same {limit : UInt64} {p : Progress} {second : Nat} (h : second = p.lastSecond) :
    atSecond limit p second = p :=
  if_neg (not_not.mpr h)

theorem atSecond_other {limit : UInt64} {p : Progress} {second : Nat} (h : second ≠ p.lastSecond) :
    atSecond limit p second =
      { p with remainingCPS := limit.toBitVec.toInt, lastSecond := second } :=
  if_pos h

/-- All turns but the last one find nothing left, and the same second. -/
theorem waitForCPS_eq_some {limit : UInt64} {p p' : Progress} {ticks : List Nat} (hlimit : 0 < limit)
    (h : waitForCPS limit ticks p = some p') :
    ∃ tick, ticks.getLast? = some tick ∧ p' = atSecond limit p (secondOf tick) ∧
      p'.remainingCPS ≠ 0 := by
  induction ticks with
  | nil => cases h
  | cons tick ticks ih =>
    rw [waitForCPS] at h
    by_cases hzero : (atSecond limit p (secondOf tick)).remainingCPS = 0
    · rw [if_pos hzero] at h
      by_cases hsame : secondOf tick = p.lastSecond
      · rw [atSecond_same hsame] at h
        obtain ⟨last, hlast, hp, hne⟩ := ih h
        exact ⟨last, by rw [getLast?_cons, hlast]; rfl, hp, hne⟩
      · rw [atSecond_other hsame] at hzero
        exact absurd hzero (toInt_ne_zero hlimit)
    · rw [if_neg hzero] at h
      by_cases hnil : ticks = []
      · rw [if_pos hnil, Option.some.injEq] at h
        rw [hnil, ← h]
        exact ⟨tick, rfl, rfl, hzero⟩
      · rw [if_neg hnil] at h
        cases h

/-- A call grants the smaller one of what is left and what is asked for. -/
theorem step_adjust {limit : UInt64} {s s' : State} {size : Int} {ticks : List Nat}
    (hlimit : 0 < limit) (h : step limit s (.adjust size ticks) = some s') :
    ∃ tick p, ticks.getLast? = some tick ∧ p = atSecond limit s.progress (secondOf tick) ∧
      p.remainingCPS ≠ 0 ∧
      s' = ⟨{ p with remainingCPS := p.remainingCPS - min p.remainingCPS size },
        s.grants ++ [⟨secondOf tick, size, min p.remainingCPS size⟩]⟩ := by
  rw [step, adjustToCPSLimit, if_pos hlimit] at h
  obtain ⟨⟨p', amount⟩, hadjust, rfl⟩ := Option.map_eq_some_iff.mp h
  obtain ⟨p, hwait, hp⟩ := Option.map_eq_some_iff.mp hadjust
  obtain ⟨tick, hlast, heq, hne⟩ := waitForCPS_eq_some hlimit hwait
  refine ⟨tick, p, hlast, heq, hne, ?_⟩
  have hmin : (if p.remainingCPS < size then p.remainingCPS else size) = min p.remainingCPS size := by
    omega
  rw [hmin, Prod.mk.injEq] at hp
  rw [← hp.1, ← hp.2, hlast]
  rfl

/-- Starting a file forgets the second, and nothing is granted. -/
theorem step_startsFile {limit : UInt64} {s s' : State} (he : e.startsFile = true)
    (h : step limit s e = some s') :
    s'.grants = s.grants ∧ s'.progress.lastSecond = 0 ∧
      s'.progress.remainingCPS = s.progress.remainingCPS := by
  have hclear : ∀ p : Progress, (clearTransfer p).lastSecond = 0 ∧
      (clearTransfer p).remainingCPS = p.remainingCPS := by
    intro p
    refine ⟨rfl, ?_⟩
    unfold clearTransfer
    dsimp only
    split <;> rfl
  cases e with
  | adjust size ticks => cases he
  | setFile fileName fileInProgress =>
    obtain rfl := Option.some.inj h
    exact ⟨rfl, hclear _⟩
  | clearTransfer =>
    obtain rfl := Option.some.inj h
    exact ⟨rfl, hclear _⟩

/-! ## What is granted in one second -/

/-- What was granted in a second, by what was asked for and by whether a file
was started in between. -/
structure Budget (limit : Int) (split : Prop) (asked granted : Int) : Prop where
  fits : asked ≤ limit → granted = asked
  spent : limit < asked → ¬split → granted = limit
  exceeded : limit < asked → split → limit < granted

section
variable {limit asked granted size remaining : Int} {split split' : Prop}

/-- More out of what is left of the budget. -/
theorem Budget.again (h : Budget limit split asked granted) (hsize : 0 < size)
    (hremaining : 0 < remaining) (hwhole : ¬split → remaining = limit - granted)
    (hparts : split → limit - granted < remaining) :
    Budget limit split (asked + size) (granted + min remaining size) := by
  by_cases hsplit : split
  · have hremaining := hparts hsplit
    refine ⟨fun hle => ?_, fun _ hn => absurd hsplit hn, fun hlt _ => ?_⟩
    · have := h.fits (by omega)
      omega
    · rcases Int.lt_or_le limit asked with hover | hunder
      · have := h.exceeded hover hsplit
        omega
      · have := h.fits hunder
        omega
  · have hwhole := hwhole hsplit
    refine ⟨fun hle => ?_, fun hlt _ => ?_, fun _ hs => absurd hs hsplit⟩
    · have := h.fits (by omega)
      omega
    · rcases Int.lt_or_le limit asked with hover | hunder
      · have := h.spent hover hsplit
        omega
      · have := h.fits hunder
        omega

/-- The first grant of a second. -/
theorem Budget.first (hsplit : ¬split) :
    Budget limit split (0 + size) (0 + min limit size) :=
  ⟨fun _ => by omega, fun _ _ => by omega, fun _ hs => absurd hs hsplit⟩

/-- The budget is filled up a second time. -/
theorem Budget.refilled (h : Budget limit split asked granted) (hsplit : split')
    (hgranted : 1 ≤ granted) (hsize : 0 < size) (hpos : 0 < limit) :
    Budget limit split' (asked + size) (granted + min limit size) := by
  refine ⟨fun hle => ?_, fun _ hn => absurd hsplit hn, fun hlt _ => ?_⟩
  · have := h.fits (by omega)
    omega
  · rcases Int.lt_or_le limit asked with hover | hunder
    · have : limit ≤ granted := by
        by_cases hs : split
        · exact Int.le_of_lt (h.exceeded hover hs)
        · exact Int.le_of_eq (h.spent hover hs).symm
      omega
    · have := h.fits hunder
      omega

end

/-- How the budget stands to what was granted in the second it is for. -/
structure Current (limit : Int) (events : List Event) (s : State) : Prop where
  granted : ∃ g ∈ s.grants, g.second = s.progress.lastSecond
  latest : ∀ g ∈ s.grants, g.second ≤ s.progress.lastSecond
  nonneg : 0 ≤ s.progress.remainingCPS
  whole : ¬Split s.progress.lastSecond events →
    s.progress.remainingCPS = limit - grantedIn s.progress.lastSecond s.grants
  parts : Split s.progress.lastSecond events →
    limit - grantedIn s.progress.lastSecond s.grants < s.progress.remainingCPS
  settled : Pending s.progress.lastSecond events → Split s.progress.lastSecond events

structure Inv (limit : Int) (events : List Event) (s : State) : Prop where
  calls : s.grants.map Grant.call = events.filterMap Event.call?
  amount : ∀ g ∈ s.grants, 1 ≤ g.amount ∧ g.amount ≤ g.size
  positive : ∀ g ∈ s.grants, 0 < g.second
  budget : ∀ second, Budget limit (Split second events) (askedIn second events)
    (grantedIn second s.grants)
  current : s.progress.lastSecond ≠ 0 → Current limit events s
  unused : s.progress.lastSecond = 0 → s.grants = [] → s.progress.remainingCPS = 0
  started : s.progress.lastSecond = 0 → ∀ g ∈ s.grants, Pending g.second events

section
variable {limit : Int} {events : List Event} {s s' : State} {g : Grant} {second : Nat}

theorem inv_nil (hpos : 0 < limit) (side : OperationSide) : Inv limit [] ⟨{ side }, []⟩ where
  calls := rfl
  amount := by simp
  positive := by simp
  budget second := ⟨fun _ => rfl, fun h => absurd h (by simp [askedIn]; omega),
    fun h => absurd h (by simp [askedIn]; omega)⟩
  current h := absurd rfl h
  unused _ _ := rfl
  started := by simp

theorem Inv.call_of_grant (h : Inv limit events s) (hg : g ∈ s.grants) :
    ∃ x ∈ events, x.call? = some (g.second, g.size) := by
  have hmem : g.call ∈ s.grants.map Grant.call := mem_map_of_mem hg
  rw [h.calls] at hmem
  exact mem_filterMap.mp hmem

theorem Inv.grant_of_call (h : Inv limit events s) (hx : ∃ x ∈ events, x.CallIn second) :
    ∃ g ∈ s.grants, g.second = second := by
  obtain ⟨x, hx, hin⟩ := hx
  obtain ⟨call, hcall, rfl⟩ := Option.map_eq_some_iff.mp hin
  have hmem : call ∈ events.filterMap Event.call? := mem_filterMap.mpr ⟨x, hx, hcall⟩
  rw [← h.calls] at hmem
  obtain ⟨g, hg, rfl⟩ := mem_map.mp hmem
  exact ⟨g, hg, rfl⟩

/-- The clock was read in the second of a grant. -/
theorem Inv.read (h : Inv limit events s) (hg : g ∈ s.grants) :
    ∃ tick ∈ events.flatMap Event.ticks, secondOf tick = g.second := by
  obtain ⟨x, hx, hcall⟩ := h.call_of_grant hg
  cases x with
  | adjust size ticks =>
    obtain ⟨tick, hlast, htick⟩ := Option.map_eq_some_iff.mp hcall
    exact ⟨tick, mem_flatMap.mpr ⟨_, hx, mem_of_getLast? hlast⟩, congrArg Prod.fst htick⟩
  | setFile fileName fileInProgress => cases hcall
  | clearTransfer => cases hcall

theorem Inv.asked_zero (h : Inv limit events s) (hnone : ∀ g ∈ s.grants, g.second ≠ second) :
    askedIn second events = 0 := by
  unfold askedIn
  rw [← h.calls, filter_map, filter_eq_nil_iff.mpr]
  · rfl
  · intro g hg
    simpa [Grant.call] using hnone g hg

theorem grantedIn_zero {grants : List Grant} (hnone : ∀ g ∈ grants, g.second ≠ second) :
    grantedIn second grants = 0 := by
  unfold grantedIn
  rw [filter_eq_nil_iff.mpr]
  · rfl
  · intro g hg
    simpa using hnone g hg

theorem Inv.granted_pos (h : Inv limit events s) (hg : g ∈ s.grants) (heq : g.second = second) :
    1 ≤ grantedIn second s.grants := by
  have hmem : g.amount ∈ (s.grants.filter fun g => g.second == second).map Grant.amount :=
    mem_map_of_mem (mem_filter.mpr ⟨hg, by simpa using heq⟩)
  refine (h.amount g hg).1.trans (single_le_sum (fun x hx => ?_) _ hmem)
  obtain ⟨g', hg', rfl⟩ := mem_map.mp hx
  have := (h.amount g' (mem_of_mem_filter hg')).1
  omega

theorem Inv.startsFile (h : Inv limit events s) (he : e.startsFile = true)
    (hgrants : s'.grants = s.grants) (hlast : s'.progress.lastSecond = 0)
    (hremaining : s'.progress.remainingCPS = s.progress.remainingCPS) :
    Inv limit (events ++ [e]) s' := by
  have hcall := call?_of_startsFile he
  have hsplit : ∀ second, Split second (events ++ [e]) ↔ Split second events := by
    intro second
    rw [split_concat, or_iff_left]
    intro ⟨hin, _⟩
    rw [Event.CallIn, hcall] at hin
    cases hin
  refine ⟨?_, hgrants ▸ h.amount, hgrants ▸ h.positive, fun second => ?_,
    fun hne => absurd hlast hne, fun _ hnil => ?_, fun _ g hg => ?_⟩
  · rw [hgrants, h.calls, filterMap_call?_startsFile he]
  · rw [hsplit, askedIn_concat, hcall, hgrants]
    simpa using h.budget second
  · rw [hremaining]
    rw [hgrants] at hnil
    by_cases hzero : s.progress.lastSecond = 0
    · exact h.unused hzero hnil
    · obtain ⟨g, hg, -⟩ := (h.current hzero).granted
      rw [hnil] at hg
      cases hg
  · rw [hgrants] at hg
    obtain ⟨x, hx, hcallx⟩ := h.call_of_grant hg
    exact (pending_concat _ _ _).mpr (.inr ⟨he, x, hx, by rw [Event.CallIn, hcallx]; rfl⟩)

/-- What a call that returns in `second` does to the other seconds. -/
theorem Inv.budget_other (h : Inv limit events s) {size amount : Int} {other : Nat}
    (he : e.call? = some (second, size)) (hne : second ≠ other) :
    Budget limit (Split other (events ++ [e])) (askedIn other (events ++ [e]))
      (grantedIn other (s.grants ++ [⟨second, size, amount⟩])) := by
  have hsplit : Split other (events ++ [e]) ↔ Split other events := by
    rw [split_concat, or_iff_left]
    intro ⟨hin, _⟩
    rw [Event.CallIn, he] at hin
    exact hne (Option.some.inj hin)
  rw [hsplit, askedIn_concat, he, grantedIn_concat]
  simpa [hne] using h.budget other

/-- A call keeps the invariant when its budget for the second is right. -/
theorem Inv.call (h : Inv limit events s) {size amount : Int} (he : e.call? = some (second, size))
    (hsecond : 0 < second) (hamount : 1 ≤ amount ∧ amount ≤ size)
    (hgrants : s'.grants = s.grants ++ [⟨second, size, amount⟩])
    (hlast : s'.progress.lastSecond = second)
    (hbudget : Budget limit (Split second (events ++ [e])) (askedIn second events + size)
      (grantedIn second s.grants + amount)) (hcurrent : Current limit (events ++ [e]) s') :
    Inv limit (events ++ [e]) s' := by
  have hpos : s'.progress.lastSecond ≠ 0 := by omega
  refine ⟨?_, ?_, ?_, fun other => ?_, fun _ => hcurrent, fun h0 => absurd h0 hpos,
    fun h0 => absurd h0 hpos⟩
  · rw [hgrants]
    exact calls_concat h.calls he
  · rw [hgrants]
    intro g hg
    rcases mem_append.mp hg with hg | hg
    · exact h.amount g hg
    · obtain rfl := mem_singleton.mp hg
      exact hamount
  · rw [hgrants]
    intro g hg
    rcases mem_append.mp hg with hg | hg
    · exact h.positive g hg
    · obtain rfl := mem_singleton.mp hg
      exact hsecond
  · rw [hgrants]
    by_cases hne : second = other
    · subst hne
      rw [askedIn_concat, he, grantedIn_concat]
      simpa using hbudget
    · exact h.budget_other he hne

/-- The facts of the budget's second once more was granted in it. -/
theorem current_concat {size amount : Int} (he : e.startsFile = false)
    (hgrants : s'.grants = s.grants ++ [⟨second, size, amount⟩])
    (hlast : s'.progress.lastSecond = second) (hlatest : ∀ g ∈ s.grants, g.second ≤ second)
    (hnonneg : 0 ≤ s'.progress.remainingCPS) (hwhole : ¬Split second (events ++ [e]) →
      s'.progress.remainingCPS = limit - (grantedIn second s.grants + amount))
    (hparts : Split second (events ++ [e]) →
      limit - (grantedIn second s.grants + amount) < s'.progress.remainingCPS)
    (hsettled : Pending second events → Split second (events ++ [e])) :
    Current limit (events ++ [e]) s' := by
  subst hlast
  have hgranted : grantedIn s'.progress.lastSecond s'.grants =
      grantedIn s'.progress.lastSecond s.grants + amount := by
    rw [hgrants, grantedIn_concat, if_pos rfl]
  refine ⟨⟨_, hgrants ▸ mem_concat_self, rfl⟩, ?_, hnonneg, ?_, ?_, ?_⟩
  · rw [hgrants]
    intro g hg
    rcases mem_append.mp hg with hg | hg
    · exact hlatest g hg
    · obtain rfl := mem_singleton.mp hg
      exact Nat.le_refl _
  · rwa [hgranted]
  · rwa [hgranted]
  · intro hpending
    rcases (pending_concat _ _ _).mp hpending with hpending | ⟨hstart, -⟩
    · exact hsettled hpending
    · rw [he] at hstart
      cases hstart

/-- A call in the second of the budget. -/
theorem Inv.again (h : Inv limit events s) {size : Int}
    (he : e.call? = some (s.progress.lastSecond, size)) (hfile : e.startsFile = false)
    (hsize : 0 < size) (hpos : s.progress.lastSecond ≠ 0) (hne : s.progress.remainingCPS ≠ 0) :
    Inv limit (events ++ [e])
      ⟨{ s.progress with
          remainingCPS := s.progress.remainingCPS - min s.progress.remainingCPS size },
        s.grants ++ [⟨s.progress.lastSecond, size, min s.progress.remainingCPS size⟩]⟩ := by
  have hcur := h.current hpos
  have hnonneg := hcur.nonneg
  have hsplit : Split s.progress.lastSecond (events ++ [e]) ↔ Split s.progress.lastSecond events := by
    rw [split_concat, or_iff_left_iff_imp]
    intro ⟨_, hpending⟩
    exact hcur.settled hpending
  refine h.call he (by omega) (by omega) rfl rfl ?_ (current_concat hfile rfl rfl hcur.latest
    (by dsimp only; omega) (fun hs => ?_) (fun hs => ?_) (fun hp => hsplit.mpr (hcur.settled hp)))
  · rw [hsplit]
    exact (h.budget _).again hsize (by omega) hcur.whole hcur.parts
  · have := hcur.whole (hsplit.not.mp hs)
    dsimp only
    omega
  · have := hcur.parts (hsplit.mp hs)
    dsimp only
    omega

/-- A call in another second than that of the budget. -/
theorem Inv.refill (h : Inv limit events s) {size : Int} (he : e.call? = some (second, size))
    (hfile : e.startsFile = false) (hsize : 0 < size) (hlimit : 0 < limit)
    (hother : second ≠ s.progress.lastSecond) (hlatest : ∀ g ∈ s.grants, g.second ≤ second) :
    Inv limit (events ++ [e])
      ⟨{ s.progress with remainingCPS := limit - min limit size, lastSecond := second },
        s.grants ++ [⟨second, size, min limit size⟩]⟩ := by
  have hcall : e.CallIn second := by
    rw [Event.CallIn, he]
    rfl
  have hzero : s.progress.lastSecond = 0 ∨ s.progress.lastSecond < second := by
    by_cases hzero : s.progress.lastSecond = 0
    · exact .inl hzero
    · obtain ⟨g, hg, heq⟩ := (h.current hzero).granted
      have := hlatest g hg
      omega
  by_cases hsome : ∃ g ∈ s.grants, g.second = second
  · -- a file was started in between
    obtain ⟨g, hg, heq⟩ := hsome
    have hlast : s.progress.lastSecond = 0 := by
      by_contra hzero'
      have := (h.current hzero').latest g hg
      omega
    have hsplit : Split second (events ++ [e]) :=
      (split_concat _ _ _).mpr (.inr ⟨hcall, heq ▸ h.started hlast g hg⟩)
    have hgranted := h.granted_pos hg heq
    refine h.call he (by omega) (by omega) rfl rfl
      ((h.budget _).refilled hsplit hgranted hsize hlimit)
      (current_concat hfile rfl rfl hlatest (by dsimp only; omega) (fun hs => absurd hsplit hs)
        (fun _ => ?_) (fun _ => hsplit))
    dsimp only
    omega
  · have hnone : ∀ g ∈ s.grants, g.second ≠ second := fun g hg heq => hsome ⟨g, hg, heq⟩
    have hpending : ¬Pending second events := fun hp => hsome (h.grant_of_call hp.call)
    have hsplit : ¬Split second (events ++ [e]) := by
      rw [split_concat]
      intro hs
      rcases hs with ⟨x, f, y, hsub, hx, -⟩ | ⟨-, hp⟩
      · exact hsome (h.grant_of_call ⟨x, hsub.subset mem_cons_self, hx⟩)
      · exact hpending hp
    refine h.call he (by omega) (by omega) rfl rfl ?_
      (current_concat hfile rfl rfl hlatest (by dsimp only; omega) (fun _ => ?_)
        (fun hs => absurd hs hsplit) (fun hp => absurd hp hpending))
    · rw [h.asked_zero hnone, grantedIn_zero hnone]
      exact .first hsplit
    · rw [grantedIn_zero hnone]
      dsimp only
      omega

theorem Inv.adjust {limit : UInt64} {size : Int} {ticks : List Nat}
    (h : Inv limit.toBitVec.toInt events s) (hlimit : 0 < limit.toBitVec.toInt)
    (hsize : ∀ call, (Event.adjust size ticks).call? = some call → 0 < call.2)
    (hclock : ∀ t ∈ events.flatMap Event.ticks, ∀ t' ∈ ticks, t ≤ t')
    (hstep : step limit s (.adjust size ticks) = some s') :
    Inv limit.toBitVec.toInt (events ++ [.adjust size ticks]) s' := by
  obtain ⟨tick, p, hlast, rfl, hne, rfl⟩ := step_adjust (pos_of_toInt_ne (by omega)) hstep
  have hcall : (Event.adjust size ticks).call? = some (secondOf tick, size) := by
    rw [Event.call?, hlast]
    rfl
  have hlatest : ∀ g ∈ s.grants, g.second ≤ secondOf tick := by
    intro g hg
    obtain ⟨t, ht, heq⟩ := h.read hg
    rw [← heq]
    exact Nat.div_le_div_right (hclock t ht tick (mem_of_getLast? hlast))
  by_cases hsame : secondOf tick = s.progress.lastSecond
  · rw [atSecond_same hsame] at hne ⊢
    have hpos : s.progress.lastSecond ≠ 0 := by
      intro hzero
      cases hgrants : s.grants with
      | nil => exact hne (h.unused hzero hgrants)
      | cons g grants =>
        have hg : g ∈ s.grants := hgrants ▸ mem_cons_self
        have := h.positive g hg
        have := hlatest g hg
        omega
    rw [hsame] at hcall ⊢
    exact h.again hcall rfl (hsize _ hcall) hpos hne
  · rw [atSecond_other hsame]
    exact h.refill hcall rfl (hsize _ hcall) hlimit hsame hlatest

/-- A limit that is negative as a signed number. -/
structure Negative (events : List Event) (s : State) : Prop where
  calls : s.grants.map Grant.call = events.filterMap Event.call?
  remaining : s.progress.remainingCPS ≤ 0
  amount : ∀ g ∈ s.grants, g.amount < 0

theorem Negative.step {limit : UInt64} (h : Negative events s) (hlimit : limit.toBitVec.toInt < 0)
    (hsize : ∀ call, e.call? = some call → 0 < call.2) (hstep : step limit s e = some s') :
    Negative (events ++ [e]) s' := by
  by_cases he : e.startsFile = true
  · obtain ⟨hgrants, -, hremaining⟩ := step_startsFile he hstep
    refine ⟨?_, hremaining ▸ h.remaining, hgrants ▸ h.amount⟩
    rw [hgrants, h.calls, filterMap_call?_startsFile he]
  · cases e with
    | adjust size ticks =>
      have hpos : 0 < limit := pos_of_toInt_ne (by omega)
      obtain ⟨tick, p, hlast, hp, hne, rfl⟩ := step_adjust hpos hstep
      have hremaining : p.remainingCPS ≤ 0 := by
        by_cases hsame : secondOf tick = s.progress.lastSecond
        · rw [hp, atSecond_same hsame]
          exact h.remaining
        · rw [hp, atSecond_other hsame]
          exact Int.le_of_lt hlimit
      have hcall : (Event.adjust size ticks).call? = some (secondOf tick, size) := by
        rw [Event.call?, hlast]
        rfl
      have hsize := hsize _ hcall
      refine ⟨calls_concat h.calls hcall, by dsimp only at hsize ⊢; omega, ?_⟩
      intro g hg
      rcases mem_append.mp hg with hg | hg
      · exact h.amount g hg
      · obtain rfl := mem_singleton.mp hg
        dsimp only
        omega
    | setFile fileName fileInProgress => exact absurd rfl he
    | clearTransfer => exact absurd rfl he

end

/-! ## The limit -/

/-- Calls ask for something, and the clock does not go back. -/
structure Proper (events : List Event) : Prop where
  sizes : ∀ call ∈ events.filterMap Event.call?, 0 < call.2
  clock : (events.flatMap Event.ticks).Pairwise (· ≤ ·)

theorem Proper.next {events done : List Event} (h : Proper events) (hpre : (done ++ [e]) <+: events) :
    (∀ call, e.call? = some call → 0 < call.2) ∧
      ∀ t ∈ done.flatMap Event.ticks, ∀ t' ∈ e.ticks, t ≤ t' := by
  obtain ⟨rest, rfl⟩ := hpre
  refine ⟨fun call he => h.sizes call (mem_filterMap.mpr ⟨e, by simp, he⟩), ?_⟩
  have hclock := h.clock
  rw [flatMap_append, flatMap_append] at hclock
  obtain ⟨-, -, hcross⟩ := pairwise_append.mp (pairwise_append.mp hclock).1
  intro t ht t' ht'
  exact hcross t ht t' (by simpa using ht')

theorem run_inv {limit : UInt64} {side : OperationSide} {events : List Event} {s : State}
    (hlimit : 0 < limit.toBitVec.toInt) (hproper : Proper events)
    (hrun : run limit ⟨{ side }, []⟩ events = some s) : Inv limit.toBitVec.toInt events s := by
  refine foldlM_history hrun (inv_nil hlimit side) fun done e s s' hpre h hstep => ?_
  obtain ⟨hsize, hclock⟩ := hproper.next hpre
  by_cases he : e.startsFile = true
  · obtain ⟨hgrants, hlast, hremaining⟩ := step_startsFile he hstep
    exact h.startsFile he hgrants hlast hremaining
  · cases e with
    | adjust size ticks => exact h.adjust hlimit hsize hclock hstep
    | setFile fileName fileInProgress => exact absurd rfl he
    | clearTransfer => exact absurd rfl he

theorem run_negative {limit : UInt64} {side : OperationSide} {events : List Event} {s : State}
    (hlimit : limit.toBitVec.toInt < 0) (hproper : Proper events)
    (hrun : run limit ⟨{ side }, []⟩ events = some s) : Negative events s := by
  refine foldlM_history hrun ⟨rfl, Int.le_refl _, by simp⟩ fun done e s s' hpre h hstep => ?_
  exact h.step hlimit (hproper.next hpre).1 hstep

/-- The limit of a second is kept as long as no file is started between two of
its calls, or all of them together ask for no more. A limit that is negative
as a signed number grants negative amounts. -/
theorem grants_within_limit_iff (limit : UInt64) (side : OperationSide) (events : List Event)
    (s : State) (hlimit : 0 < limit) (hproper : Proper events)
    (hrun : run limit ⟨{ side }, []⟩ events = some s) :
    ((∀ g ∈ s.grants, 1 ≤ g.amount ∧ g.amount ≤ g.size) ∧
        ∀ second, grantedIn second s.grants ≤ limit.toNat) ↔
      (events.filterMap Event.call? ≠ [] → limit.toNat < 2 ^ 63) ∧
        ∀ second, Split second events → askedIn second events ≤ limit.toNat := by
  by_cases hsigned : limit.toNat < 2 ^ 63
  · have hint := toInt_of_lt hsigned
    have hpos : 0 < limit.toNat := UInt64.lt_iff_toNat_lt.mp hlimit
    have h := run_inv (by omega) hproper hrun
    rw [hint] at h
    refine ⟨fun ⟨_, hwithin⟩ => ⟨fun _ => hsigned, fun second hsplit => ?_⟩,
      fun ⟨_, hasked⟩ => ⟨h.amount, fun second => ?_⟩⟩
    · by_contra hover
      have := (h.budget second).exceeded (by omega) hsplit
      have := hwithin second
      omega
    · rcases Int.lt_or_le limit.toNat (askedIn second events) with hover | hunder
      · by_cases hsplit : Split second events
        · have := hasked second hsplit
          omega
        · exact Int.le_of_eq ((h.budget second).spent hover hsplit)
      · rw [(h.budget second).fits hunder]
        exact hunder
  · have h := run_negative (toInt_neg_of_not_lt hsigned) hproper hrun
    rw [← h.calls]
    cases hgrants : s.grants with
    | nil =>
      refine ⟨fun _ => ⟨by simp, fun second _ => ?_⟩, fun _ => ⟨by simp, fun second => ?_⟩⟩
      · rw [askedIn, ← h.calls, hgrants]
        exact Int.natCast_nonneg _
      · exact Int.natCast_nonneg _
    | cons g grants =>
      have hamount := h.amount g (hgrants ▸ List.mem_cons_self)
      refine ⟨fun ⟨hpos, _⟩ => ?_, fun ⟨hsmall, _⟩ => absurd (hsmall (by simp)) hsigned⟩
      have := hpos g List.mem_cons_self
      omega

/-- Two calls for the limit of 10 in the second after the first one, with a file
started in between. -/
theorem limit_exceeded :
    (run 10 ⟨{ side := .osLocal }, []⟩
        [.adjust 10 [1000], .setFile (wstr "b") true, .adjust 10 [1500]]).map
      (fun s => grantedIn 1 s.grants) = some 20 := by
  decide

/-- Three files in one second that need the limit together, and a call that waits
for the next second. -/
def smallFiles : List Event :=
  [.adjust 4 [1000], .clearTransfer, .adjust 3 [1100], .setFile (wstr "c") true, .adjust 3 [1200],
    .adjust 10 [2000], .adjust 1 [2200, 2900, 3000]]

theorem smallFiles_within_limit :
    ∃ s, run 10 ⟨{ side := .osLocal }, []⟩ smallFiles = some s ∧ s.grants.length = 5 ∧
      ∀ second, grantedIn second s.grants ≤ 10 := by
  have hrun : (run 10 ⟨{ side := .osLocal }, []⟩ smallFiles).map (fun s => s.grants.length) =
      some 5 := by
    decide
  obtain ⟨s, hs, hlength⟩ := Option.map_eq_some_iff.mp hrun
  have hiff := grants_within_limit_iff 10 .osLocal smallFiles s (by decide) ⟨by decide, by decide⟩ hs
  have hasked : ∀ call ∈ smallFiles.filterMap Event.call?, askedIn call.1 smallFiles ≤ 10 := by
    decide
  refine ⟨s, hs, hlength, (hiff.mpr ⟨fun _ => by decide, fun second hsplit => ?_⟩).2⟩
  obtain ⟨x, e, y, hsub, hx, -⟩ := hsplit
  obtain ⟨call, hcall, rfl⟩ := Option.map_eq_some_iff.mp hx
  exact hasked call (List.mem_filterMap.mpr ⟨x, hsub.subset List.mem_cons_self, hcall⟩)

end NetBox.Terminal.SpeedLimit
