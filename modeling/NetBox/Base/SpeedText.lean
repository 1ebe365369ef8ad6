import NetBox.Base.Integers
import NetBox.Base.Sizes

/-! # Speed limits as texts

A speed limit is edited as a number of kilobytes, or as the word for no limit. The number
of bytes is cut to 32 bits, so a limit from 4194304 KB on becomes a smaller one, or none.
What comes out is always a multiple of 1024, and so it is written back as it was read.
-/
namespace NetBox.Base.Text

/-- The text for no limit, and `AnsiSameText`, which takes it for itself and for no number. -/
structure SpeedTexts where
  unlimited : UnicodeString
  sameText : UnicodeString → UnicodeString → Bool
  same_self : sameText unlimited unlimited = true
  not_number : ∀ text value, IsInteger text value → sameText text unlimited = false

/-- A table with the word of the resources, compared as it is. -/
def SpeedTexts.exact : SpeedTexts where
  unlimited := wstr "Unlimited"
  sameText a b := a == b
  same_self := beq_self_eq_true _
  not_number text value h := by
    refine beq_false_of_ne fun he => ?_
    have htail := h.tail 110 (by rw [he]; decide)
    exact absurd htail (by decide)

variable (t : SpeedTexts) (text : UnicodeString)

def tryGetSpeedLimit : Option Nat :=
  if t.sameText text t.unlimited then some 0
  else
    let (found, sspeed) := tryStrToInt64 text
    if found && decide (0 ≤ sspeed) then some (times1024 sspeed % 2 ^ 32).toNat else none

def setSpeedLimit (limit : Nat) : UnicodeString :=
  if limit = 0 then t.unlimited else int64ToStr (toInt32 (limit / 1024 : Nat))

/-- A limit that was read is written and read again as it is, and it is 1024 bytes for each
of the kilobytes that the text tells. -/
def LimitRight : Prop :=
  ∀ limit, tryGetSpeedLimit t text = some limit →
    tryGetSpeedLimit t (setSpeedLimit t limit) = some limit ∧
      ∀ k : Int, IsInteger text k → limit = k * 1024

variable {t text} {k : Int}

theorem times1024_mod (k : Int) : times1024 k % 2 ^ 32 = k * 1024 % 2 ^ 32 := by
  have hmod : times1024 k % 2 ^ 64 = k * 1024 % 2 ^ 64 := Int.bmod_emod
  omega

/-- Any other text than the one for no limit is a number. -/
theorem tryGetSpeedLimit_iff {limit : Nat} (hother : t.sameText text t.unlimited = false) :
    tryGetSpeedLimit t text = some limit ↔
      ∃ k, tryStrToInt64 text = (true, k) ∧ 0 ≤ k ∧ limit = (k * 1024 % 2 ^ 32).toNat := by
  rw [tryGetSpeedLimit, hother, if_neg Bool.false_ne_true]
  obtain ⟨found, k⟩ := tryStrToInt64 text
  dsimp only
  rw [times1024_mod]
  constructor
  · intro h
    split at h
    next hfound =>
      rw [Bool.and_eq_true, decide_eq_true_eq] at hfound
      cases h
      exact ⟨k, by rw [hfound.1], hfound.2, rfl⟩
    · cases h
  · rintro ⟨_, hread, hk, rfl⟩
    cases hread
    rw [decide_eq_true hk, Bool.true_and, if_pos rfl]

theorem isInteger_intToStr {n : Nat} (h : n < 2 ^ 63) : IsInteger (intToStr n) n := by
  refine ⟨[], intToStr n, rfl, rfl, intToStr_ne_nil n, fun ch => isDigit_of_mem_intToStr, ?_, ?_⟩
  · rw [digitsValue, foldl_intToStr]
    rfl
  · unfold InInt64
    omega

/-- A multiple of 1024 comes back. -/
theorem tryGetSpeedLimit_set {q : Nat} (hq : q < 2 ^ 22) :
    tryGetSpeedLimit t (setSpeedLimit t (q * 1024)) = some (q * 1024) := by
  by_cases hzero : q = 0
  · rw [hzero, setSpeedLimit, if_pos rfl, tryGetSpeedLimit, t.same_self, if_pos rfl]
  · have htext : setSpeedLimit t (q * 1024) = intToStr q := by
      rw [setSpeedLimit, if_neg (by omega), Nat.mul_div_cancel _ (by decide), toInt32,
        Int.bmod_eq_of_le (by omega) (by omega), int64ToStr, if_neg (by omega), Int.natAbs_natCast]
    have hint : IsInteger (intToStr q) q := isInteger_intToStr (by omega)
    have hread : tryStrToInt64 (intToStr q) = (true, (q : Int)) :=
      tryStrToInt64_iff.mpr ⟨hint.wtoi64, .inl (by omega)⟩
    rw [htext, tryGetSpeedLimit_iff (t.not_number _ _ hint)]
    exact ⟨q, hread, by omega, by omega⟩

/-- What is read is a multiple of 1024 with 32 bits. -/
theorem exists_kilobytes {limit : Nat} (h : tryGetSpeedLimit t text = some limit) :
    ∃ q < 2 ^ 22, limit = q * 1024 := by
  cases hsame : t.sameText text t.unlimited with
  | true =>
    rw [tryGetSpeedLimit, hsame, if_pos rfl] at h
    cases h
    exact ⟨0, by decide, rfl⟩
  | false =>
    obtain ⟨k, -, -, rfl⟩ := (tryGetSpeedLimit_iff hsame).mp h
    exact ⟨(k % 2 ^ 22).toNat, by omega, by omega⟩

/-- A speed limit is read right just when it is no number from 4194304 on. -/
theorem speedLimit_right_iff (t : SpeedTexts) (text : UnicodeString) :
    LimitRight t text ↔ ∀ k, IsInteger text k → k < 4194304 := by
  constructor
  · intro h k hk
    by_contra hbig
    have hread := tryStrToInt64_iff.mpr ⟨hk.wtoi64, .inl (by omega)⟩
    have hlimit := (tryGetSpeedLimit_iff (t.not_number text k hk)).mpr ⟨k, hread, by omega, rfl⟩
    have hexact := (h _ hlimit).2 k hk
    omega
  · intro h limit hlimit
    obtain ⟨q, hq, hmul⟩ := exists_kilobytes hlimit
    refine ⟨hmul ▸ tryGetSpeedLimit_set hq, fun k hk => ?_⟩
    have hsmall := h k hk
    obtain ⟨value, hread, hpos, hvalue⟩ := (tryGetSpeedLimit_iff (t.not_number text k hk)).mp hlimit
    have hsame : value = k := (Prod.mk.inj ((tryStrToInt64_iff.mp hread).1.symm.trans hk.wtoi64)).1
    omega

theorem speedLimit_wraps : IsInteger (wstr "4194304") 4194304 ∧
    tryGetSpeedLimit SpeedTexts.exact (wstr "4194304") = some 0 := by
  refine ⟨⟨[], wstr "4194304", rfl, rfl, by decide, forall_mem_of_all (by decide), rfl,
    by unfold InInt64; decide⟩, ?_⟩
  decide

end NetBox.Base.Text
