import NetBox.Lib.SortedSearch

/-! # Quicksort by exchanges

The list is only reached by positions: two items are compared, or exchanged. The pivot is a
position too, which follows the item when that is exchanged. Positions are integers, and a
comparison or an exchange at a position that the list does not have fails.
-/
namespace NetBox.Lib.QuickSort
open Lib.SortedSearch

variable {σ β : Type*}

/-- A position is moved on as long as the test says so. -/
def scan (test : Int → Option Bool) (step : Int) : Nat → Int → Option Int
  | 0, _ => none
  | fuel + 1, i =>
    match test i with
    | none => none
    | some true => scan test step fuel (i + step)
    | some false => some i

section Algorithm
variable (compare : σ → Int → Int → Option Int) (exchange : σ → Int → Int → Option σ)

/-- The two positions run towards each other until they have passed. -/
def part (rounds : Nat) : Nat → σ → Int → Int → Int → Option (σ × Int × Int)
  | 0, _, _, _, _ => none
  | fuel + 1, s, i, j, p =>
    (scan (fun i => (compare s i p).map (· < 0)) 1 rounds i).bind fun i =>
      (scan (fun j => (compare s j p).map (0 < ·)) (-1) rounds j).bind fun j =>
        if i ≤ j then
          (exchange s i j).bind fun s =>
            let p := if p = i then j else if p = j then i else p
            if i + 1 ≤ j - 1 then part rounds fuel s (i + 1) (j - 1) p
            else some (s, i + 1, j - 1)
        else some (s, i, j)

/-- The items from `l` to `r`. -/
def quickSort : Nat → σ → Int → Int → Option σ
  | 0, _, _, _ => none
  | fuel + 1, s, l, r =>
    (part compare exchange (r - l + 1).toNat (r - l + 1).toNat s l r ((l + r) / 2)).bind
      fun (s, i, j) =>
        (if l < j then quickSort fuel s l j else some s).bind fun s =>
          if i < r then quickSort fuel s i r else some s

end Algorithm

/-! ## One scan -/

section Scan
variable (test : Int → Option Bool) (fuel : Nat) {i stop : Int}

theorem scan_up (hle : i ≤ stop) (hfuel : stop - i < fuel)
    (hread : ∀ k, i ≤ k → k < stop → (test k).isSome) (hstop : test stop = some false) :
    ∃ k, i ≤ k ∧ k ≤ stop ∧ scan test 1 fuel i = some k ∧ test k = some false ∧
      ∀ k', i ≤ k' → k' < k → test k' = some true := by
  induction fuel generalizing i with
  | zero => omega
  | succ fuel ih =>
    by_cases hend : test i = some false
    · exact ⟨i, Int.le_refl i, hle, by simp [scan, hend], hend, fun _ _ _ => by omega⟩
    · have hne : i ≠ stop := fun heq => hend (heq ▸ hstop)
      have htrue : test i = some true := by
        obtain ⟨more, hmore⟩ := Option.isSome_iff_exists.mp (hread i (Int.le_refl i) (by omega))
        cases more with
        | false => exact absurd hmore hend
        | true => exact hmore
      obtain ⟨k, hik, hk, hscan, hfalse, hbefore⟩ := ih (i := i + 1) (by omega) (by omega)
        fun k' hk' hlt => hread k' (by omega) hlt
      refine ⟨k, by omega, hk, by rw [scan, htrue]; exact hscan, hfalse, fun k' hk' hlt => ?_⟩
      by_cases heq : k' = i
      · rw [heq]
        exact htrue
      · exact hbefore k' (by omega) hlt

theorem scan_neg (i : Int) :
    scan test (-1) fuel (-i) = (scan (fun k => test (-k)) 1 fuel i).map (-·) := by
  induction fuel generalizing i with
  | zero => rfl
  | succ fuel ih =>
    rw [scan, scan]
    cases htest : test (-i) with
    | none => rfl
    | some more =>
      cases more with
      | true =>
        have hnext := ih (i + 1)
        rw [Int.neg_add] at hnext
        exact hnext
      | false => rfl

theorem scan_down (hle : stop ≤ i) (hfuel : i - stop < fuel)
    (hread : ∀ k, stop < k → k ≤ i → (test k).isSome) (hstop : test stop = some false) :
    ∃ k, stop ≤ k ∧ k ≤ i ∧ scan test (-1) fuel i = some k ∧ test k = some false ∧
      ∀ k', k < k' → k' ≤ i → test k' = some true := by
  obtain ⟨k, hik, hk, hscan, hfalse, hbefore⟩ := scan_up (fun k => test (-k)) fuel
    (Int.neg_le_neg hle) (by omega) (fun k hk hlt => hread (-k) (by omega) (by omega))
    (by rwa [Int.neg_neg])
  refine ⟨-k, by omega, by omega, ?_, hfalse, fun k' hk' hle' => ?_⟩
  · rw [← Int.neg_neg i, scan_neg, hscan]
    rfl
  · have := hbefore (-k') (by omega) (by omega)
    rwa [Int.neg_neg] at this

end Scan

/-! ## What the list does -/

/-- A list that can be sorted: which states are good, the item at a position, and how many items
there are. -/
structure Sortable (f : β → β → Int) (compare : σ → Int → Int → Option Int)
    (exchange : σ → Int → Int → Option σ) (Valid : σ → Prop) (item : σ → Int → β) (n : Int) :
    Prop where
  compares : ∀ s i j, Valid s → 0 ≤ i → i < n → 0 ≤ j → j < n →
    compare s i j = some (f (item s i) (item s j))
  exchanges : ∀ s i j, Valid s → 0 ≤ i → i < n → 0 ≤ j → j < n → ∃ s', exchange s i j = some s' ∧
    Valid s' ∧ item s' i = item s j ∧ item s' j = item s i ∧
    ∀ k, k ≠ i → k ≠ j → item s' k = item s k

/-- The items from `l` to `r` come from there, and the others stay. -/
structure Within (l r : Int) (a a' : Int → β) : Prop where
  outside : ∀ k, k < l ∨ r < k → a' k = a k
  inside : ∀ k, l ≤ k → k ≤ r → ∃ k', l ≤ k' ∧ k' ≤ r ∧ a' k = a k'

namespace Within
variable {l r l' r' : Int} {a b c : Int → β}

theorem refl (l r : Int) (a : Int → β) : Within l r a a :=
  ⟨fun _ _ => rfl, fun k hl hr => ⟨k, hl, hr, rfl⟩⟩

theorem trans (hab : Within l r a b) (hbc : Within l r b c) : Within l r a c where
  outside k hk := (hbc.outside k hk).trans (hab.outside k hk)
  inside k hl hr := by
    obtain ⟨k', hl', hr', hk'⟩ := hbc.inside k hl hr
    obtain ⟨k'', hl'', hr'', hk''⟩ := hab.inside k' hl' hr'
    exact ⟨k'', hl'', hr'', hk'.trans hk''⟩

theorem widen (h : Within l r a b) (hl : l' ≤ l) (hr : r ≤ r') : Within l' r' a b where
  outside k hk := h.outside k (by omega)
  inside k hkl hkr := by
    by_cases hk : l ≤ k ∧ k ≤ r
    · obtain ⟨k', hl', hr', hk'⟩ := h.inside k hk.1 hk.2
      exact ⟨k', by omega, by omega, hk'⟩
    · exact ⟨k, hkl, hkr, h.outside k (by omega)⟩

/-- What holds of all items between two positions that the range does not cross stays so. -/
theorem forall_between {P : β → Prop} (h : Within l r a b) (hl : l' ≤ l ∨ r < l') (hr : r ≤ r' ∨ r' < l)
    (hall : ∀ k, l' ≤ k → k ≤ r' → P (a k)) : ∀ k, l' ≤ k → k ≤ r' → P (b k) := by
  intro k hkl hkr
  by_cases hk : l ≤ k ∧ k ≤ r
  · obtain ⟨k', hl', hr', hk'⟩ := h.inside k hk.1 hk.2
    rw [hk']
    exact hall k' (by omega) (by omega)
  · rw [h.outside k (by omega)]
    exact hall k hkl hkr

end Within

/-! ## Parting around the pivot -/

variable {f : β → β → Int} {compare : σ → Int → Int → Option Int}
  {exchange : σ → Int → Int → Option σ} {Valid : σ → Prop} {item : σ → Int → β} {n : Int}

/-- What holds between two rounds. In both directions there is an item that stops the scan. -/
structure Parting (c : β → Int) (pv : β) (a : Int → β) (l r i j p : Int) : Prop where
  pivot : l ≤ p ∧ p ≤ r ∧ a p = pv
  left : l ≤ i
  right : j ≤ r
  low : ∀ k, l ≤ k → k < i → c (a k) ≤ 0
  high : ∀ k, j < k → k ≤ r → 0 ≤ c (a k)
  stopUp : ∃ k, i ≤ k ∧ k ≤ r ∧ 0 ≤ c (a k)
  stopDown : ∃ k, l ≤ k ∧ k ≤ j ∧ c (a k) ≤ 0

/-- What holds at the end. -/
structure Parted (c : β → Int) (a : Int → β) (l r i j : Int) : Prop where
  left : l < i ∧ i ≤ r + 1
  right : j < r ∧ l ≤ j + 1
  passed : j < i
  low : ∀ k, l ≤ k → k < i → c (a k) ≤ 0
  high : ∀ k, j < k → k ≤ r → 0 ≤ c (a k)

section Round
variable {c : β → Int} {pv : β} {a a' : Int → β} {l r i j p i' j' : Int}

/-- The positions of a scan that has ended. -/
structure Scanned (c : β → Int) (a : Int → β) (l r i j i' j' : Int) : Prop where
  up : i ≤ i' ∧ i' ≤ r ∧ 0 ≤ c (a i')
  upBefore : ∀ k, i ≤ k → k < i' → c (a k) < 0
  down : j' ≤ j ∧ l ≤ j' ∧ c (a j') ≤ 0
  downBefore : ∀ k, j' < k → k ≤ j → 0 < c (a k)

theorem Scanned.low (h : Scanned c a l r i j i' j') (hlow : ∀ k, l ≤ k → k < i → c (a k) ≤ 0) :
    ∀ k, l ≤ k → k < i' → c (a k) ≤ 0 := by
  intro k hl hk
  by_cases hki : k < i
  · exact hlow k hl hki
  · exact Int.le_of_lt (h.upBefore k (by omega) hk)

theorem Scanned.high (h : Scanned c a l r i j i' j') (hhigh : ∀ k, j < k → k ≤ r → 0 ≤ c (a k)) :
    ∀ k, j' < k → k ≤ r → 0 ≤ c (a k) := by
  intro k hk hr
  by_cases hkj : j < k
  · exact hhigh k hkj hr
  · exact Int.le_of_lt (h.downBefore k hk (by omega))

/-- An item with the pivot's key between the positions stays between them. -/
theorem Scanned.around (h : Scanned c a l r i j i' j') {k : Int} (hk : c (a k) = 0) (hik : i ≤ k)
    (hkj : k ≤ j) : i' ≤ k ∧ k ≤ j' := by
  constructor
  · by_contra hlt
    have := h.upBefore k hik (by omega)
    omega
  · by_contra hlt
    have := h.downBefore k (by omega) hkj
    omega

/-- The positions after an exchange. -/
structure Exchanged (a a' : Int → β) (i j : Int) : Prop where
  first : a' i = a j
  second : a' j = a i
  others : ∀ k, k ≠ i → k ≠ j → a' k = a k

theorem Exchanged.within (h : Exchanged a a' i j) (hl : l ≤ i) (hij : i ≤ j) (hr : j ≤ r) :
    Within l r a a' where
  outside k hk := h.others k (by omega) (by omega)
  inside k hkl hkr := by
    by_cases hi : k = i
    · exact ⟨j, by omega, hr, by rw [hi, h.first]⟩
    · by_cases hj : k = j
      · exact ⟨i, hl, by omega, by rw [hj, h.second]⟩
      · exact ⟨k, hkl, hkr, h.others k hi hj⟩

theorem Exchanged.low (h : Exchanged a a' i' j') (hscan : Scanned c a l r i j i' j')
    (hij : i' ≤ j') (hlow : ∀ k, l ≤ k → k < i → c (a k) ≤ 0) :
    ∀ k, l ≤ k → k < i' + 1 → c (a' k) ≤ 0 := by
  intro k hl hk
  by_cases heq : k = i'
  · rw [heq, h.first]
    exact hscan.down.2.2
  · rw [h.others k heq (by omega)]
    exact hscan.low hlow k hl (by omega)

theorem Exchanged.high (h : Exchanged a a' i' j') (hscan : Scanned c a l r i j i' j')
    (hij : i' ≤ j') (hhigh : ∀ k, j < k → k ≤ r → 0 ≤ c (a k)) :
    ∀ k, j' - 1 < k → k ≤ r → 0 ≤ c (a' k) := by
  intro k hk hr
  by_cases heq : k = j'
  · rw [heq, h.second]
    exact hscan.up.2.2
  · rw [h.others k (by omega) heq]
    exact hscan.high hhigh k (by omega) hr

/-- The next round, where there is one. -/
theorem Parting.next (inv : Parting c pv a l r i j p) (hscan : Scanned c a l r i j i' j')
    (h : Exchanged a a' i' j') (hmore : i' + 1 ≤ j' - 1) :
    Parting c pv a' l r (i' + 1) (j' - 1) (if p = i' then j' else if p = j' then i' else p) where
  pivot := by
    obtain ⟨hl, hr, hpv⟩ := inv.pivot
    have := inv.left
    have := inv.right
    have := hscan.up
    have := hscan.down
    split
    next heq => exact ⟨by omega, by omega, by rw [h.second, ← heq, hpv]⟩
    next hi =>
      split
      next heq => exact ⟨by omega, by omega, by rw [h.first, ← heq, hpv]⟩
      next hj => exact ⟨hl, hr, by rw [h.others p hi hj, hpv]⟩
  left := by
    have := inv.left
    have := hscan.up
    omega
  right := by
    have := inv.right
    have := hscan.down
    omega
  low := h.low hscan (by omega) inv.low
  high := h.high hscan (by omega) inv.high
  stopUp := by
    have := inv.right
    have := hscan.down
    exact ⟨j', by omega, by omega, by rw [h.second]; exact hscan.up.2.2⟩
  stopDown := by
    have := inv.left
    have := hscan.up
    exact ⟨i', by omega, by omega, by rw [h.first]; exact hscan.down.2.2⟩

end Round

section Run
variable (hsort : Sortable f compare exchange Valid item n) (hf : IsComparison f)
include hsort

theorem scans {s : σ} {pv : β} {l r i j p : Int} {rounds : Nat} (hs : Valid s) (hl : 0 ≤ l) (hr : r < n)
    (hrounds : r - l < rounds) (inv : Parting (f · pv) pv (item s) l r i j p) :
    ∃ i' j', scan (fun i => (compare s i p).map (· < 0)) 1 rounds i = some i' ∧
      scan (fun j => (compare s j p).map (0 < ·)) (-1) rounds j = some j' ∧
      Scanned (f · pv) (item s) l r i j i' j' := by
  obtain ⟨hpl, hpr, hpv⟩ := inv.pivot
  have hcompare : ∀ k, l ≤ k → k ≤ r → compare s k p = some (f (item s k) pv) := by
    intro k hkl hkr
    rw [← hpv]
    exact hsort.compares s k p hs (by omega) (by omega) (by omega) (by omega)
  have hleft := inv.left
  have hright := inv.right
  obtain ⟨up, hiup, hupr, hup⟩ := inv.stopUp
  obtain ⟨down, hldown, hdownj, hdown⟩ := inv.stopDown
  obtain ⟨i', hii', hi', hscan, hfalse, htrue⟩ :=
    scan_up (fun i => (compare s i p).map (· < 0)) rounds hiup (by omega)
      (fun k hk hlt => by simp [hcompare k (by omega) (by omega)])
      (by simp [hcompare up (by omega) hupr, hup])
  obtain ⟨j', hj', hjj', hscan', hfalse', htrue'⟩ :=
    scan_down (fun j => (compare s j p).map (0 < ·)) rounds hdownj (by omega)
      (fun k hk hlt => by simp [hcompare k (by omega) (by omega)])
      (by simp [hcompare down hldown (by omega), hdown])
  refine ⟨i', j', hscan, hscan', ⟨⟨hii', by omega, ?_⟩, fun k hk hlt => ?_, ⟨hjj', by omega, ?_⟩,
    fun k hk hle => ?_⟩⟩
  · simpa [hcompare i' (by omega) (by omega)] using hfalse
  · simpa [hcompare k (by omega) (by omega)] using htrue k hk hlt
  · simpa [hcompare j' (by omega) (by omega)] using hfalse'
  · simpa [hcompare k (by omega) (by omega)] using htrue' k hk hle

include hf

/-- The parting of the items from `l` to `r`. In the first round the pivot stands between the two
positions, so that both have moved afterwards. -/
theorem part_spec (rounds fuel : Nat) {s : σ} {pv : β} {l r i j p : Int} (hs : Valid s)
    (hl : 0 ≤ l) (hr : r < n) (hrounds : r - l < rounds) (hij : i ≤ j) (hfuel : j - i < fuel)
    (inv : Parting (f · pv) pv (item s) l r i j p) (hmoved : i ≤ p ∧ p ≤ j ∨ l < i ∧ j < r) :
    ∃ s' i' j', part compare exchange rounds fuel s i j p = some (s', i', j') ∧ Valid s' ∧
      Within l r (item s) (item s') ∧ Parted (f · pv) (item s') l r i' j' := by
  induction fuel generalizing s i j p with
  | zero => omega
  | succ fuel ih =>
    obtain ⟨i', j', hup, hdown, hscan⟩ := scans hsort hs hl hr hrounds inv
    have hleft := inv.left
    have hright := inv.right
    obtain ⟨hii', hi'r, -⟩ := hscan.up
    obtain ⟨hjj', hlj', -⟩ := hscan.down
    rw [part, hup, hdown, Option.bind_some, Option.bind_some]
    by_cases hle : i' ≤ j'
    · obtain ⟨s', hexchange, hs', hfirst, hsecond, hothers⟩ :=
        hsort.exchanges s i' j' hs (by omega) (by omega) (by omega) (by omega)
      have hex : Exchanged (item s) (item s') i' j' := ⟨hfirst, hsecond, hothers⟩
      have hwithin := hex.within (l := l) (r := r) (by omega) hle (by omega)
      rw [if_pos hle, hexchange, Option.bind_some]
      dsimp only
      by_cases hmore : i' + 1 ≤ j' - 1
      · rw [if_pos hmore]
        obtain ⟨s'', i'', j'', hpart, hs'', hwithin', hparted⟩ := ih hs' hmore (by omega)
          (inv.next hscan hex hmore) (.inr (by omega))
        exact ⟨s'', i'', j'', hpart, hs'', hwithin.trans hwithin', hparted⟩
      · rw [if_neg hmore]
        exact ⟨s', i' + 1, j' - 1, rfl, hs', hwithin, by omega, by omega, by omega,
          hex.low hscan hle inv.low, hex.high hscan hle inv.high⟩
    · rw [if_neg hle]
      -- the scans have passed, so that this is not the first round
      have hfar : l < i ∧ j < r := by
        refine hmoved.resolve_left fun hp => ?_
        have hzero : f (item s p) pv = 0 := by rw [inv.pivot.2.2, hf.self]
        have := hscan.around hzero hp.1 hp.2
        omega
      exact ⟨s, i', j', rfl, hs, .refl l r _, by omega, by omega, by omega, hscan.low inv.low,
        hscan.high inv.high⟩

/-- The items from `l` to `r` are put in order, and every comparison and exchange is at a
position of the list. -/
theorem quickSort_spec (fuel : Nat) {s : σ} {l r : Int} (hs : Valid s) (hl : 0 ≤ l) (hlr : l ≤ r)
    (hr : r < n) (hfuel : r - l < fuel) :
    ∃ s', quickSort compare exchange fuel s l r = some s' ∧ Valid s' ∧
      Within l r (item s) (item s') ∧
      ∀ k k', l ≤ k → k < k' → k' ≤ r → f (item s' k) (item s' k') ≤ 0 := by
  induction fuel generalizing s l r with
  | zero => omega
  | succ fuel ih =>
    have hzero : f (item s ((l + r) / 2)) (item s ((l + r) / 2)) = 0 := hf.self _
    obtain ⟨s₁, i, j, hpart, hs₁, hwithin₁, hparted⟩ := part_spec hsort hf
      (r - l + 1).toNat (r - l + 1).toNat hs hl hr (by omega) hlr (by omega)
      ⟨⟨by omega, by omega, rfl⟩, Int.le_refl l, Int.le_refl r, fun _ _ _ => by omega,
        fun _ _ _ => by omega, ⟨(l + r) / 2, by omega, by omega, Int.le_of_eq hzero.symm⟩,
        ⟨(l + r) / 2, by omega, by omega, Int.le_of_eq hzero⟩⟩ (.inl (by omega))
    generalize item s ((l + r) / 2) = pv at hparted
    obtain ⟨hli, hir⟩ := hparted.left
    obtain ⟨hjr, hlj⟩ := hparted.right
    have hpassed := hparted.passed
    have hsub : ∀ s l r, Valid s → 0 ≤ l → r < n → r - l < fuel →
        ∃ s', (if l < r then quickSort compare exchange fuel s l r else some s) = some s' ∧
          Valid s' ∧ Within l r (item s) (item s') ∧
          ∀ k k', l ≤ k → k < k' → k' ≤ r → f (item s' k) (item s' k') ≤ 0 := by
      intro s l r hs hl hr hfuel
      by_cases hlt : l < r
      · rw [if_pos hlt]
        exact ih hs hl (Int.le_of_lt hlt) hr hfuel
      · rw [if_neg hlt]
        exact ⟨s, rfl, hs, .refl l r _, fun _ _ _ _ _ => by omega⟩
    obtain ⟨s₂, hrun₂, hs₂, hwithin₂, hsorted₂⟩ := hsub s₁ l j hs₁ hl (by omega) (by omega)
    obtain ⟨s₃, hrun₃, hs₃, hwithin₃, hsorted₃⟩ := hsub s₂ i r hs₂ (by omega) hr (by omega)
    refine ⟨s₃, ?_, hs₃, ?_, ?_⟩
    · rw [quickSort, hpart, Option.bind_some]
      dsimp only
      rw [hrun₂, Option.bind_some, hrun₃]
    · exact hwithin₁.trans ((hwithin₂.widen (Int.le_refl l) (by omega)).trans
        (hwithin₃.widen (by omega) (Int.le_refl r)))
    · -- items up to `i` are at most the pivot, and those behind `j` at least
      have hlow : ∀ k, l ≤ k → k ≤ i - 1 → f (item s₃ k) pv ≤ 0 :=
        hwithin₃.forall_between (P := (f · pv ≤ 0)) (by omega) (by omega)
          (hwithin₂.forall_between (P := (f · pv ≤ 0)) (by omega) (by omega) fun k hk hki =>
            hparted.low k hk (by omega))
      have hhigh : ∀ k, j + 1 ≤ k → k ≤ r → 0 ≤ f (item s₃ k) pv :=
        hwithin₃.forall_between (P := (0 ≤ f · pv)) (by omega) (by omega)
          (hwithin₂.forall_between (P := (0 ≤ f · pv)) (by omega) (by omega) fun k hk hkr =>
            hparted.high k (by omega) hkr)
      intro k k' hk hlt hk'
      by_cases hleft : k' ≤ j
      · rw [hwithin₃.outside k (by omega), hwithin₃.outside k' (by omega)]
        exact hsorted₂ k k' hk hlt hleft
      · by_cases hright : i ≤ k
        · exact hsorted₃ k k' hright hlt hk'
        · refine hf.trans _ _ _ (hlow k hk (by omega)) ?_
          have hge := hhigh k' (by omega) hk'
          have hswap := hf.swap pv (item s₃ k')
          omega

end Run

end NetBox.Lib.QuickSort
