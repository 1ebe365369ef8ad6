import NetBox.Lib.Run
import NetBox.Remote.Rights
import Mathlib.Tactic.IntervalCases

/-! # Bookkeeping of rights

Over any sequence of operations on any number of rights, the bits known to be set
and those known to be unset are to be disjoint and among the twelve permission
bits. A number with other bits, a complement, and a text like `rwxr-sr-x` break
this; nothing else does.
-/
namespace NetBox.Remote
open Base.Text Lib.Run

namespace TRights

variable {r a b : TRights}

/-- The two sets of bits are disjoint and hold permission bits only. -/
structure Sound (r : TRights) : Prop where
  disjoint : ∀ i, r.set.getLsbD i = true → r.unset.getLsbD i = false
  set_lt : ∀ i, r.set.getLsbD i = true → i < 12
  unset_lt : ∀ i, r.unset.getLsbD i = true → i < 12

/-- A number that holds permission bits only. -/
def Within (value : Flags) : Prop := ∀ i, value.getLsbD i = true → i < 12

theorem getLsbD_rfAllSpecials (i : Nat) : rfAllSpecials.getLsbD i = decide (i < 12) := by
  by_cases h : i < 16
  · interval_cases i <;> rfl
  · rw [BitVec.getLsbD_of_ge _ _ (by omega), decide_eq_false (by omega)]

/-! ## Numbers -/

theorem setNumber_set (r : TRights) (value : Flags) : (r.setNumber value).set = value := by
  unfold setNumber
  split
  · rfl
  next h =>
    obtain ⟨hset, -⟩ := not_or.mp h
    exact not_not.mp hset

theorem setNumber_unset (r : TRights) (value : Flags) (hr : r.Sound) :
    (r.setNumber value).unset = rfAllSpecials &&& ~~~value := by
  unfold setNumber
  split
  · rfl
  next h =>
    obtain ⟨hset, hall⟩ := not_or.mp h
    rw [not_not] at hset hall
    subst hset
    apply BitVec.eq_of_getLsbD_eq
    intro i hi
    have hbit : (r.set.getLsbD i || r.unset.getLsbD i) = decide (i < 12) := by
      rw [← getLsbD_rfAllSpecials, ← hall, BitVec.getLsbD_or]
    have hdisjoint := hr.disjoint i
    rw [BitVec.getLsbD_and, BitVec.getLsbD_not, getLsbD_rfAllSpecials, ← hbit, decide_eq_true hi]
    cases hs : r.set.getLsbD i with
    | true => simp [hdisjoint hs]
    | false => simp

/-- All bits are defined by a number. -/
theorem sound_of_number {set unset : Flags} (hr : r.set = set) (hu : r.unset = unset)
    (h : unset = rfAllSpecials &&& ~~~set) : r.Sound ↔ Within set := by
  subst hr hu
  refine ⟨fun hs => hs.set_lt, fun hs => ⟨fun i hi => ?_, hs, fun i hi => ?_⟩⟩
  · rw [h, BitVec.getLsbD_and, BitVec.getLsbD_not, hi]
    simp
  · rw [h, BitVec.getLsbD_and, getLsbD_rfAllSpecials] at hi
    simpa using (Bool.and_eq_true_iff.mp hi).1

theorem sound_setNumber_iff (hr : r.Sound) (value : Flags) :
    (r.setNumber value).Sound ↔ Within value :=
  sound_of_number (setNumber_set r value) (setNumber_unset r value hr) rfl

theorem sound_ofNumber_iff (number : Flags) : (ofNumber number).Sound ↔ Within number := by
  have hempty : (⟨[], 0, 0, false, true⟩ : TRights).Sound := ⟨by simp, by simp, by simp⟩
  exact sound_setNumber_iff hempty number

theorem within_or {x y : Flags} : Within (x ||| y) ↔ Within x ∧ Within y := by
  constructor
  · exact fun h => ⟨fun i hi => h i (by simp [hi]), fun i hi => h i (by simp [hi])⟩
  · rintro ⟨hx, hy⟩ i hi
    rw [BitVec.getLsbD_or, Bool.or_eq_true] at hi
    exact hi.elim (hx i) (hy i)

theorem Within.and {x : Flags} (h : Within x) (y : Flags) : Within (x &&& y) := by
  intro i hi
  rw [BitVec.getLsbD_and, Bool.and_eq_true] at hi
  exact h i hi.1

/-- A complement has all the bits that are no permissions. -/
theorem not_within_not {x : Flags} (h : Within x) : ¬ Within (~~~x) := by
  intro hnot
  have hbit : x.getLsbD 12 = false := by
    by_contra hb
    exact absurd (h 12 (eq_true_of_ne_false hb)) (by omega)
  exact absurd (hnot 12 (by rw [BitVec.getLsbD_not, hbit]; rfl)) (by omega)

/-! ## Single rights -/

/-- The bit of a right. -/
def bitOf (right : Right) : Nat := 11 - right.val

theorem getLsbD_rightToFlag (right : Right) (i : Nat) :
    (rightToFlag right).getLsbD i = decide (i = bitOf right) := by
  rw [rightToFlag, ← BitVec.twoPow_eq, BitVec.getLsbD_twoPow, bitOf]
  have hlt : 11 - right.val < 16 := by omega
  simp [hlt, eq_comm]

theorem and_rightToFlag_ne_zero (x : Flags) (right : Right) :
    x &&& rightToFlag right ≠ 0 ↔ x.getLsbD (bitOf right) = true := by
  constructor
  · intro h
    by_contra hbit
    apply h
    apply BitVec.eq_of_getLsbD_eq
    intro i _
    rw [BitVec.getLsbD_and, getLsbD_rightToFlag]
    by_cases hi : i = bitOf right
    · rw [hi, eq_false_of_ne_true hbit]
      simp
    · simp [hi]
  · intro hbit hzero
    have := congrArg (BitVec.getLsbD · (bitOf right)) hzero
    simp [getLsbD_rightToFlag, hbit] at this

theorem getRightUndef_eq (r : TRights) (right : Right) :
    r.getRightUndef right =
      if r.set.getLsbD (bitOf right) then .yes
      else if r.unset.getLsbD (bitOf right) then .no
      else .undef := by
  simp only [getRightUndef, and_rightToFlag_ne_zero]

theorem Sound.setRightUndef (h : r.Sound) (right : Right) (value : RightState) :
    (r.setRightUndef right value).Sound := by
  have hlt : bitOf right < 12 := by
    unfold bitOf
    omega
  have hflag : ∀ i, (rightToFlag right).getLsbD i = true → i < 12 := by
    intro i hi
    rw [getLsbD_rightToFlag, decide_eq_true_iff] at hi
    omega
  unfold TRights.setRightUndef
  split
  · cases value with
    | yes =>
      refine ⟨fun i hi => ?_, fun i hi => ?_, fun i hi => ?_⟩
      · simp only [BitVec.getLsbD_or, BitVec.getLsbD_and, BitVec.getLsbD_not] at hi ⊢
        cases hf : (rightToFlag right).getLsbD i with
        | true => simp
        | false =>
          rw [hf, Bool.or_false] at hi
          simp [h.disjoint i hi]
      · rw [BitVec.getLsbD_or, Bool.or_eq_true] at hi
        exact hi.elim (h.set_lt i) (hflag i)
      · rw [BitVec.getLsbD_and, Bool.and_eq_true] at hi
        exact h.unset_lt i hi.1
    | no =>
      refine ⟨fun i hi => ?_, fun i hi => ?_, fun i hi => ?_⟩
      · simp only [BitVec.getLsbD_or, BitVec.getLsbD_and, BitVec.getLsbD_not] at hi ⊢
        obtain ⟨hset, hf⟩ := Bool.and_eq_true_iff.mp hi
        have hno : (rightToFlag right).getLsbD i = false := by
          simpa using (Bool.and_eq_true_iff.mp hf).2
        simp [h.disjoint i hset, hno]
      · rw [BitVec.getLsbD_and, Bool.and_eq_true] at hi
        exact h.set_lt i hi.1
      · rw [BitVec.getLsbD_or, Bool.or_eq_true] at hi
        exact hi.elim (h.unset_lt i) (hflag i)
    | undef =>
      refine ⟨fun i hi => ?_, fun i hi => ?_, fun i hi => ?_⟩
      · rw [BitVec.getLsbD_and, Bool.and_eq_true] at hi
        rw [BitVec.getLsbD_and, h.disjoint i hi.1, Bool.false_and]
      · rw [BitVec.getLsbD_and, Bool.and_eq_true] at hi
        exact h.set_lt i hi.1
      · rw [BitVec.getLsbD_and, Bool.and_eq_true] at hi
        exact h.unset_lt i hi.1
  · exact ⟨h.disjoint, h.set_lt, h.unset_lt⟩

theorem Sound.setRight (h : r.Sound) (right : Right) (value : Bool) :
    (r.setRight right value).Sound := h.setRightUndef right _

theorem Sound.allUndef (h : r.Sound) : r.allUndef.Sound := by
  unfold TRights.allUndef
  split
  · exact ⟨by simp, by simp, by simp⟩
  · exact ⟨h.disjoint, h.set_lt, h.unset_lt⟩

theorem Sound.foldl {α : Type} {f : TRights → α → TRights} (hf : ∀ r a, r.Sound → (f r a).Sound)
    (l : List α) (h : r.Sound) : (l.foldl f r).Sound := by
  induction l generalizing r with
  | nil => exact h
  | cons a l ih => exact ih (hf r a h)

theorem Sound.andRights (ha : a.Sound) (b : TRights) : (a.andRights b).Sound := by
  unfold TRights.andRights
  split
  · refine Sound.foldl (fun r right h => ?_) _ ha
    unfold andRight
    split
    · exact h.setRightUndef right .undef
    · exact h
  · have hwithin : Within a.set := ha.set_lt
    exact (sound_setNumber_iff ha _).mpr (hwithin.and _)

theorem Sound.addExecute (h : r.Sound) : r.addExecute.Sound := by
  have hfold : ((List.finRange 3).foldl addExecuteTo r).Sound := by
    refine Sound.foldl (fun r group h => ?_) _ h
    unfold addExecuteTo
    split
    · have hset := h.setRight ⟨5 + group.val * 3, by omega⟩ true
      exact ⟨hset.disjoint, hset.set_lt, hset.unset_lt⟩
    · exact h
  exact ⟨hfold.disjoint, hfold.set_lt, hfold.unset_lt⟩

/-! ## Texts -/

namespace Symbol

/-- The bit of the position is set. -/
def sets : Symbol → Bool
  | .combined | .basic => true
  | _ => false

/-- The special bit of the group is set. -/
def setsExt : Symbol → Bool
  | .combined | .extended => true
  | _ => false

def unsets : Symbol → Bool
  | .unset | .extended => true
  | _ => false

/-- The special bit is unset, by an execute right without it and by every `-`. -/
def unsetsExt (index : Nat) : Symbol → Bool
  | .unset => true
  | .basic => index % 3 == 0
  | _ => false

end Symbol

theorem getLsbD_set_readSymbol (r : TRights) (index : Nat) (flag ext : Flags) (s : Symbol) (i : Nat) :
    (r.readSymbol index flag ext s).set.getLsbD i =
      (r.set.getLsbD i || (s.sets && flag.getLsbD i) || (s.setsExt && ext.getLsbD i)) := by
  cases s <;> simp [readSymbol, Symbol.sets, Symbol.setsExt, Bool.or_assoc]

theorem getLsbD_unset_readSymbol (r : TRights) (index : Nat) (flag ext : Flags) (s : Symbol)
    (i : Nat) :
    (r.readSymbol index flag ext s).unset.getLsbD i =
      (r.unset.getLsbD i || (s.unsets && flag.getLsbD i) ||
        (s.unsetsExt index && ext.getLsbD i)) := by
  cases s <;> simp [readSymbol, Symbol.unsets, Symbol.unsetsExt, Bool.or_assoc]
  split <;> simp_all

/-- Only at the end of a group there are letters for the special bit. -/
theorem symbolAt_setsExt {index : Nat} (h : combinedSymbols.getD (index - 1) 0 = unsetSymbol)
    (h' : extendedSymbols.getD (index - 1) 0 = unsetSymbol) (ch : WChar) :
    (symbolAt index ch).setsExt = false := by
  unfold symbolAt
  by_cases hunset : isUnset ch = true
  · rw [if_pos hunset]
    rfl
  · have hne : ch ≠ unsetSymbol := by
      rintro rfl
      exact hunset rfl
    rw [if_neg hunset, h, h', if_neg hne, if_neg hne]
    split <;> rfl

/-- A group whose special bit is set has no `-` in front of it. -/
def GroupFine (first second third : Symbol) : Prop :=
  third.setsExt = true → first ≠ .unset ∧ second ≠ .unset

/-- The nine positions, with what the characters mean. -/
def readNine (s1 s2 s3 s4 s5 s6 s7 s8 s9 : Symbol) (r : TRights) : TRights :=
  ((((((((r.readSymbol 9 0o1#16 0o1000#16 s9).readSymbol 8 0o2#16 0o1000#16 s8).readSymbol 7
    0o4#16 0o1000#16 s7).readSymbol 6 0o10#16 0o2000#16 s6).readSymbol 5 0o20#16 0o2000#16
    s5).readSymbol 4 0o40#16 0o2000#16 s4).readSymbol 3 0o100#16 0o4000#16 s3).readSymbol 2
    0o200#16 0o4000#16 s2).readSymbol 1 0o400#16 0o4000#16 s1

theorem readSymbols_eq (r : TRights) (c1 c2 c3 c4 c5 c6 c7 c8 c9 : WChar) :
    r.readSymbols 0o1#16 0o1000#16 [c9, c8, c7, c6, c5, c4, c3, c2, c1] =
      readNine (symbolAt 1 c1) (symbolAt 2 c2) (symbolAt 3 c3) (symbolAt 4 c4) (symbolAt 5 c5)
        (symbolAt 6 c6) (symbolAt 7 c7) (symbolAt 8 c8) (symbolAt 9 c9) r := by
  simp [readSymbols, readNine]

theorem Symbol.unsets_of_sets {s : Symbol} (h : s.sets = true) : s.unsets = false := by
  cases s <;> first | rfl | cases h

theorem groupFine_iff {s1 s2 s3 : Symbol} (m : Nat) (h1 : s1.setsExt = false)
    (h2 : s2.setsExt = false) : GroupFine s1 s2 s3 ↔
      ((s3.setsExt || s2.setsExt || s1.setsExt) = true →
        (s3.unsetsExt (3 * m + 3) || s2.unsetsExt (3 * m + 2) || s1.unsetsExt (3 * m + 1)) =
          false) := by
  have hm1 : (3 * m + 1) % 3 = 1 := by omega
  have hm2 : (3 * m + 2) % 3 = 2 := by omega
  rw [GroupFine, h1, h2]
  cases s3 <;> cases s2 <;> cases s1 <;>
    simp [Symbol.setsExt, Symbol.unsetsExt, hm1, hm2]

section Nine

variable {s1 s2 s3 s4 s5 s6 s7 s8 s9 : Symbol}

theorem readNine_high (hset : r.set = 0) (hunset : r.unset = 0) {i : Nat} (hi : 12 ≤ i) :
    (readNine s1 s2 s3 s4 s5 s6 s7 s8 s9 r).set.getLsbD i = false ∧
    (readNine s1 s2 s3 s4 s5 s6 s7 s8 s9 r).unset.getLsbD i = false := by
  by_cases hlt : i < 16
  · simp only [readNine, getLsbD_set_readSymbol, getLsbD_unset_readSymbol, hset, hunset]
    interval_cases i <;> simp
  · exact ⟨BitVec.getLsbD_of_ge _ _ (by omega), BitVec.getLsbD_of_ge _ _ (by omega)⟩

theorem sound_readNine_iff (hset : r.set = 0) (hunset : r.unset = 0)
    (h1 : s1.setsExt = false) (h2 : s2.setsExt = false) (h4 : s4.setsExt = false)
    (h5 : s5.setsExt = false) (h7 : s7.setsExt = false) (h8 : s8.setsExt = false) :
    (readNine s1 s2 s3 s4 s5 s6 s7 s8 s9 r).Sound ↔
      GroupFine s1 s2 s3 ∧ GroupFine s4 s5 s6 ∧ GroupFine s7 s8 s9 := by
  rw [groupFine_iff 0 h1 h2, groupFine_iff 1 h4 h5, groupFine_iff 2 h7 h8]
  constructor
  · intro h
    have hd := h.disjoint
    simp only [readNine, getLsbD_set_readSymbol, getLsbD_unset_readSymbol, hset, hunset] at hd
    exact ⟨by simpa using hd 11, by simpa using hd 10, by simpa using hd 9⟩
  · rintro ⟨hfirst, hsecond, hthird⟩
    refine ⟨fun i => ?_, fun i hi => ?_, fun i hi => ?_⟩
    · by_cases hlt : i < 12
      · simp only [readNine, getLsbD_set_readSymbol, getLsbD_unset_readSymbol, hset, hunset]
        interval_cases i
        -- nine bits of one character each, and the special bits of the groups
        iterate 9 exact by simpa using Symbol.unsets_of_sets
        · simpa using hthird
        · simpa using hsecond
        · simpa using hfirst
      · exact fun _ => (readNine_high hset hunset (by omega)).2
    · by_contra hlt
      rw [(readNine_high hset hunset (by omega)).1] at hi
      cases hi
    · by_contra hlt
      rw [(readNine_high hset hunset (by omega)).2] at hi
      cases hi

end Nine

/-- No group of the text has a letter for its special bit behind a `-` or `*`. -/
def Tidy (value : UnicodeString) : Prop :=
  ∀ k < 3, (symbolAt (3 * k + 3) (value.getD (3 * k + 2) 0)).setsExt = true →
    isUnset (value.getD (3 * k) 0) = false ∧ isUnset (value.getD (3 * k + 1) 0) = false

theorem symbolAt_eq_unset_iff (index : Nat) (ch : WChar) :
    symbolAt index ch = .unset ↔ isUnset ch = true := by
  unfold symbolAt
  split
  next h => simp [h]
  next h =>
    refine iff_of_false ?_ h
    split
    · simp
    · split
      · simp
      · split <;> simp

theorem groupFine_symbolAt (i j k : Nat) (c1 c2 c3 : WChar) :
    GroupFine (symbolAt i c1) (symbolAt j c2) (symbolAt k c3) ↔
      ((symbolAt k c3).setsExt = true → isUnset c1 = false ∧ isUnset c2 = false) := by
  rw [GroupFine, ne_eq, symbolAt_eq_unset_iff, ne_eq, symbolAt_eq_unset_iff, Bool.not_eq_true,
    Bool.not_eq_true]

/-- A text is read soundly exactly when it is tidy. -/
theorem sound_readSymbols_iff {value : UnicodeString} (hlen : value.length = textLen)
    (hset : r.set = 0) (hunset : r.unset = 0) :
    (r.readSymbols 0o1#16 0o1000#16 value.reverse).Sound ↔ Tidy value := by
  match value, hlen with
  | [c1, c2, c3, c4, c5, c6, c7, c8, c9], _ =>
    have hreverse : [c1, c2, c3, c4, c5, c6, c7, c8, c9].reverse =
        [c9, c8, c7, c6, c5, c4, c3, c2, c1] := rfl
    rw [hreverse, readSymbols_eq, sound_readNine_iff hset hunset (symbolAt_setsExt rfl rfl _)
      (symbolAt_setsExt rfl rfl _) (symbolAt_setsExt rfl rfl _) (symbolAt_setsExt rfl rfl _)
      (symbolAt_setsExt rfl rfl _) (symbolAt_setsExt rfl rfl _)]
    simp only [groupFine_symbolAt]
    constructor
    · rintro ⟨hfirst, hsecond, hthird⟩ k hk
      interval_cases k
      · exact hfirst
      · exact hsecond
      · exact hthird
    · intro h
      exact ⟨h 0 (by omega), h 1 (by omega), h 2 (by omega)⟩

/-- The rights after an operation that may fail, which then leaves them alone. -/
def orSame (r : TRights) : Except RightsError TRights → TRights
  | .ok r' => r'
  | .error _ => r

theorem sound_setText_iff (h : r.Sound) (value : UnicodeString) :
    (r.orSame (r.setText value)).Sound ↔
      value = r.getText ∨ r.refuses value = true ∨ Tidy value := by
  unfold setText
  split
  next hsame => exact iff_of_true ⟨h.disjoint, h.set_lt, h.unset_lt⟩ (.inl hsame)
  next hother =>
    split
    next hrefuses => exact iff_of_true h (.inr (.inl hrefuses))
    next haccepts =>
      have hlen : value.length = textLen := by
        simp only [refuses, Bool.or_eq_true, not_or, bne_iff_ne, ne_eq, not_not] at haccepts
        exact haccepts.1.1
      have hread : ({ r with set := 0, unset := 0 } : TRights).set = 0 := rfl
      refine Iff.trans ⟨fun hs => ?_, fun hs => ⟨hs.disjoint, hs.set_lt, hs.unset_lt⟩⟩
        ((sound_readSymbols_iff hlen hread rfl).trans ?_)
      · exact ⟨hs.disjoint, hs.set_lt, hs.unset_lt⟩
      · simp [hother, haccepts]

theorem within_of_toNat_lt {x : Flags} (h : x.toNat < 4096) : Within x := by
  intro i hi
  by_contra hlt
  have hbig : 2 ^ 12 ≤ 2 ^ i := Nat.pow_le_pow_right (by decide) (by omega)
  rw [BitVec.getLsbD, Nat.testBit_lt_two_pow (by omega)] at hi
  cases hi

theorem Sound.setOctal (h : r.Sound) (value : UnicodeString) :
    (r.orSame (r.setOctal value)).Sound := by
  have hdigit : ∀ ch, isOctal ch = true → (octalValue ch).toNat ≤ 7 := by
    intro ch hch
    simp only [isOctal, Bool.and_eq_true, decide_eq_true_eq, UInt16.le_iff_toNat_le] at hch
    obtain ⟨-, hch⟩ := hch
    have hle : ch.toNat ≤ 55 := hch
    simp only [octalValue, BitVec.toNat_ofNat]
    omega
  unfold TRights.setOctal
  generalize (if value.length = 3 then 48 :: value else value) = digits
  dsimp only
  split
  · exact ⟨h.disjoint, h.set_lt, h.unset_lt⟩
  · split
    next a b c d hvalue =>
      split
      next hall =>
        simp only [Bool.and_eq_true] at hall
        obtain ⟨⟨⟨ha, hb⟩, hc⟩, hd⟩ := hall
        have ha := hdigit a ha
        have hb := hdigit b hb
        have hc := hdigit c hc
        have hd := hdigit d hd
        have hwithin : Within (octalValue a <<< 9 + octalValue b <<< 6 + octalValue c <<< 3 +
            octalValue d) := by
          apply within_of_toNat_lt
          simp only [BitVec.toNat_add, BitVec.toNat_shiftLeft, Nat.shiftLeft_eq]
          omega
        have hs := (sound_setNumber_iff h _).mpr hwithin
        exact ⟨hs.disjoint, hs.set_lt, hs.unset_lt⟩
      next => exact h
    next => exact h

theorem Sound.combine (ha : a.Sound) (hb : b.Sound) : (a.combine b).Sound := by
  have hor : (a.orNumber b.set).Sound :=
    (sound_setNumber_iff ha _).mpr (within_or.mpr ⟨ha.set_lt, hb.set_lt⟩)
  have hwithin : Within (a.orNumber b.set).set := hor.set_lt
  exact (sound_setNumber_iff hor _).mpr (hwithin.and _)

/-! ## What a combination says -/

theorem combine_set (a b : TRights) : (a.combine b).set = (a.set ||| b.set) &&& ~~~b.unset := by
  rw [combine, andNumber, setNumber_set, getNumber, orNumber, setNumber_set, getNumber]

theorem combine_unset (ha : a.Sound) (hb : b.Sound) :
    (a.combine b).unset = rfAllSpecials &&& ~~~((a.set ||| b.set) &&& ~~~b.unset) := by
  have hor : (a.orNumber b.set).Sound :=
    (sound_setNumber_iff ha _).mpr (within_or.mpr ⟨ha.set_lt, hb.set_lt⟩)
  rw [combine, andNumber, setNumber_unset _ _ hor, getNumber, orNumber, setNumber_set, getNumber]

/-- The right of a combination: what the second one says, or else the first one. -/
def overlay (a b : TRights) (right : Right) : RightState :=
  if b.getRightUndef right = .undef then a.getRightUndef right else b.getRightUndef right

theorem combine_right_iff (ha : a.Sound) (hb : b.Sound) (right : Right) :
    (a.combine b).getRightUndef right = a.overlay b right ↔
      a.getRightUndef right ≠ .undef ∨ b.getRightUndef right ≠ .undef := by
  have hlt : bitOf right < 12 := by
    unfold bitOf
    omega
  have hda := ha.disjoint (bitOf right)
  have hdb := hb.disjoint (bitOf right)
  simp only [overlay, getRightUndef_eq, combine_set, combine_unset ha hb, BitVec.getLsbD_and,
    BitVec.getLsbD_or, BitVec.getLsbD_not, getLsbD_rfAllSpecials, decide_eq_true hlt,
    decide_eq_true (show bitOf right < 16 by omega)]
  revert hda hdb
  cases a.set.getLsbD (bitOf right) <;> cases b.set.getLsbD (bitOf right) <;>
    cases a.unset.getLsbD (bitOf right) <;> cases b.unset.getLsbD (bitOf right) <;> simp

end TRights

/-! ## Histories -/

/-- An operation on one of the rights, in the words of the source. -/
inductive RightsOp
  | create (x : Nat) (number : Flags)
  | assign (x y : Nat)
  | number (x : Nat) (value : Flags)
  | text (x : Nat) (value : UnicodeString)
  | textOverride (x : Nat) (value : UnicodeString)
  | octal (x : Nat) (value : UnicodeString)
  | right (x : Nat) (right : Right) (value : RightState)
  | readOnly (x : Nat) (value : Bool)
  | addExecute (x : Nat)
  | allUndef (x : Nat)
  | allowUndef (x : Nat) (value : Bool)
  | orNumber (x : Nat) (value : Flags)
  | orRights (x y : Nat)
  | andNumber (x : Nat) (value : Flags)
  | andRights (x y : Nat)
  | complement (x y : Nat)
  | combine (x y z : Nat)

abbrev RightsVars := Nat → TRights

namespace RightsOp

open TRights

/-- The rights that an operation writes, and what it writes there. -/
def target : RightsOp → Nat
  | create x _ | assign x _ | number x _ | text x _ | textOverride x _ | octal x _ | right x _ _
  | readOnly x _ | addExecute x | allUndef x | allowUndef x _ | orNumber x _ | orRights x _
  | andNumber x _ | andRights x _ | complement x _ | combine x _ _ => x

def written (vars : RightsVars) : RightsOp → TRights
  | create _ n => .ofNumber n
  | assign _ y => vars y
  | number x value => (vars x).setNumber value
  | text x value => (vars x).orSame ((vars x).setText value)
  | textOverride x value => (vars x).setTextOverride value
  | octal x value => (vars x).orSame ((vars x).setOctal value)
  | right x which value => (vars x).setRightUndef which value
  | readOnly x value => (vars x).setReadOnly value
  | addExecute x => (vars x).addExecute
  | allUndef x => (vars x).allUndef
  | allowUndef x value => (vars x).setAllowUndef value
  | orNumber x value => (vars x).orNumber value
  | orRights x y => (vars x).orRights (vars y)
  | andNumber x value => (vars x).andNumber value
  | andRights x y => (vars x).andRights (vars y)
  | complement _ y => (vars y).complement
  | combine _ y z => (vars y).combine (vars z)

def step (vars : RightsVars) (op : RightsOp) : Option RightsVars :=
  some (Function.update vars op.target (op.written vars))

/-- A number brings permission bits only, a text is tidy (or is refused, or says
what is known), and there is no complement. -/
def Fine (vars : RightsVars) : RightsOp → Prop
  | create _ value | number _ value | orNumber _ value => Within value
  | text x value => value = (vars x).getText ∨ (vars x).refuses value = true ∨ Tidy value
  | complement _ _ => False
  | _ => True

/-- One operation on sound rights. -/
theorem sound_written_iff {vars : RightsVars} (h : ∀ x, (vars x).Sound) (op : RightsOp) :
    (op.written vars).Sound ↔ op.Fine vars := by
  cases op with
  | create x n => exact sound_ofNumber_iff n
  | assign x y => exact iff_of_true (h y) trivial
  | number x value => exact sound_setNumber_iff (h x) value
  | text x value => exact sound_setText_iff (h x) value
  | textOverride x value =>
    refine iff_of_true ?_ trivial
    simp only [written, setTextOverride]
    split
    · exact ⟨(h x).disjoint, (h x).set_lt, (h x).unset_lt⟩
    · exact h x
  | octal x value => exact iff_of_true ((h x).setOctal value) trivial
  | right x which value => exact iff_of_true ((h x).setRightUndef which value) trivial
  | readOnly x value =>
    exact iff_of_true ((((h x).setRight 4 _).setRight 7 _).setRight 10 _) trivial
  | addExecute x => exact iff_of_true (h x).addExecute trivial
  | allUndef x => exact iff_of_true (h x).allUndef trivial
  | allowUndef x value =>
    exact iff_of_true ⟨(h x).disjoint, (h x).set_lt, (h x).unset_lt⟩ trivial
  | orNumber x value =>
    rw [written, TRights.orNumber, sound_setNumber_iff (h x), within_or]
    exact and_iff_right (h x).set_lt
  | orRights x y =>
    exact iff_of_true ((sound_setNumber_iff (h x) _).mpr
      (within_or.mpr ⟨(h x).set_lt, (h y).set_lt⟩)) trivial
  | andNumber x value =>
    have hwithin : Within (vars x).set := (h x).set_lt
    exact iff_of_true ((sound_setNumber_iff (h x) _).mpr (hwithin.and _)) trivial
  | andRights x y => exact iff_of_true ((h x).andRights (vars y)) trivial
  | complement x y =>
    refine iff_of_false (fun hs => ?_) id
    exact not_within_not (h y).set_lt ((sound_ofNumber_iff _).mp hs)
  | combine x y z => exact iff_of_true ((h y).combine (h z)) trivial

end RightsOp

open TRights RightsOp in
/-- Bookkeeping of rights. In every history whose operations are all fine, the
bits known to be set and to be unset stay disjoint and among the permission bits.
An operation on such rights that is not fine breaks this. A combination has every
right as the second one says, or else as the first one says, exactly when none is
undefined in both. -/
theorem rights_bookkeeping (vars : RightsVars) (op : RightsOp) (a b : TRights) :
    (Reaches RightsOp.step (fun vars op => op.Fine vars) (fun _ => ofNumber 0) vars →
      ∀ x, (vars x).Sound) ∧
    ((∀ x, (vars x).Sound) →
      ((∀ x, (Function.update vars op.target (op.written vars) x).Sound) ↔ op.Fine vars)) ∧
    (a.Sound → b.Sound →
      ((∀ right, (a.combine b).getRightUndef right = a.overlay b right) ↔
        ∀ right, a.getRightUndef right ≠ .undef ∨ b.getRightUndef right ≠ .undef)) := by
  have hone : ∀ vars : RightsVars, (∀ x, (vars x).Sound) → ∀ op : RightsOp,
      ((∀ x, (Function.update vars op.target (op.written vars) x).Sound) ↔ op.Fine vars) := by
    intro vars h op
    rw [← sound_written_iff h op]
    constructor
    · intro hall
      have htarget := hall op.target
      rwa [Function.update_self] at htarget
    · intro hs x
      by_cases hx : x = op.target
      · rw [hx, Function.update_self]
        exact hs
      · rw [Function.update_of_ne hx]
        exact h x
  refine ⟨fun hreach => ?_, fun h => hone vars h op, fun ha hb => ?_⟩
  · refine hreach.invariant (P := fun vars => ∀ x, (vars x).Sound) (fun _ => ?_) ?_
    · exact (sound_ofNumber_iff 0).mpr fun i hi => by simp at hi
    · intro vars op next h hfine hstep
      obtain rfl := Option.some.inj hstep
      exact (hone vars h op).mpr hfine
  · exact forall_congr' fun right => combine_right_iff ha hb right

open TRights in
/-- The group `r-s` of `rwxr-sr-x` has its special bit both set and unset. -/
theorem rights_setgid_both :
    ((ofNumber 0).orSame ((ofNumber 0).setText (wstr "rwxr-sr-x"))).set.getLsbD 10 = true ∧
    ((ofNumber 0).orSame ((ofNumber 0).setText (wstr "rwxr-sr-x"))).unset.getLsbD 10 = true := by
  decide

end NetBox.Remote
