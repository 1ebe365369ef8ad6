import NetBox.Queue.State

/-! # The connections of the queue

The free connections stand at the front of their list and have no item, and as
many of the others have one as there are items in process. This holds in every
run, whatever is done to the items.
-/
namespace NetBox.Queue
open Lib.Holders Lib.Run List

def Activity.item : Activity → Option ItemId
  | .working work => some work.item
  | _ => none

theorem holds_eq (s : State) (t : TerminalId) : s.holds t = (s.activity t).item := by
  unfold State.holds Activity.item
  rfl

@[simp] theorem setActivity_holds (s : State) (t : TerminalId) (a : Activity) :
    (s.setActivity t a).holds = Function.update s.holds t a.item := by
  funext t'
  rw [holds_eq, State.setActivity]
  by_cases h : t' = t
  · subst h
    simp
  · simp [h, holds_eq]

/-- What is said of the connections only. -/
structure Pool (s : State) (idle busy : List TerminalId) : Prop where
  terminals : s.terminals = idle ++ busy
  free : s.freeTerminals = idle.length
  nodup : s.terminals.Nodup
  known : ∀ t ∈ s.terminals, t ≤ s.overallTerminals
  idle_free : ∀ t ∈ idle, s.activity t = .free
  busy_not_free : ∀ t ∈ busy, s.activity t ≠ .free
  outside : ∀ t, t ∉ s.terminals → s.activity t = .closing
  count : s.itemsInProcess = (busy.filterMap s.holds).length

theorem init_pool : Pool State.init [] [] where
  terminals := rfl
  free := rfl
  nodup := nodup_nil
  known := nofun
  idle_free := nofun
  busy_not_free := nofun
  outside := fun _ _ => rfl
  count := rfl

section Pool

variable {s s' : State} {idle busy : List TerminalId} {t : TerminalId}

/-- There are at least as many connections that are not free as items in process. -/
theorem Pool.itemsInProcess_le (h : Pool s idle busy) :
    s.itemsInProcess ≤ s.terminals.length - s.freeTerminals := by
  have hlen : s.terminals.length = idle.length + busy.length := by
    rw [h.terminals, length_append]
  have hcount := length_filterMap_le s.holds busy
  rw [h.count, h.free, hlen]
  omega

theorem Pool.mem_busy (h : Pool s idle busy) (hne : s.activity t ≠ .closing)
    (hfree : s.activity t ≠ .free) : t ∈ busy := by
  have hmem : t ∈ s.terminals := by
    by_contra hno
    exact hne (h.outside t hno)
  rw [h.terminals, mem_append] at hmem
  exact hmem.resolve_left fun hidle => hfree (h.idle_free t hidle)

theorem Pool.not_mem_idle (h : Pool s idle busy) (ht : t ∈ busy) : t ∉ idle := fun hidle =>
  h.busy_not_free t ht (h.idle_free t hidle)

theorem Pool.busy_nodup (h : Pool s idle busy) : busy.Nodup :=
  (nodup_append'.mp (h.terminals ▸ h.nodup)).2.1

theorem Pool.free_holds (h : Pool s idle busy) {i : Nat} (hi : i < s.freeTerminals)
    (hget : s.terminals[i]? = some t) : s.holds t = none := by
  rw [h.free] at hi
  rw [h.terminals, getElem?_append_left hi] at hget
  rw [holds_eq, h.idle_free t (mem_of_getElem? hget)]
  rfl

/-- What does not touch the connections. -/
theorem Pool.frame (h : Pool s idle busy) (hterminals : s'.terminals = s.terminals)
    (hfree : s'.freeTerminals = s.freeTerminals)
    (hoverall : s'.overallTerminals = s.overallTerminals)
    (hactivity : s'.activity = s.activity) (hcount : s'.itemsInProcess = s.itemsInProcess) :
    Pool s' idle busy where
  terminals := hterminals.trans h.terminals
  free := hfree.trans h.free
  nodup := hterminals ▸ h.nodup
  known := by rw [hterminals, hoverall]; exact h.known
  idle_free := by rw [hactivity]; exact h.idle_free
  busy_not_free := by rw [hactivity]; exact h.busy_not_free
  outside := by rw [hterminals, hactivity]; exact h.outside
  count := by
    have hholds : s'.holds = s.holds := by
      funext t
      rw [holds_eq, holds_eq, hactivity]
    rw [hcount, hholds, h.count]

/-- A connection that is not free changes what it does, but not to being free. -/
theorem Pool.setActivity (h : Pool s idle busy) (ht : t ∈ busy) {a : Activity}
    (ha : a ≠ .free) {n : Nat}
    (hcount : n = (busy.filterMap (Function.update s.holds t a.item)).length) :
    Pool { s.setActivity t a with itemsInProcess := n } idle busy where
  terminals := h.terminals
  free := h.free
  nodup := h.nodup
  known := h.known
  idle_free := by
    intro t' ht'
    have hne : t' ≠ t := fun he => h.not_mem_idle ht (he ▸ ht')
    exact (Function.update_of_ne hne _ _).trans (h.idle_free t' ht')
  busy_not_free := by
    intro t' ht'
    show Function.update s.activity t a t' ≠ .free
    by_cases he : t' = t
    · rw [he, Function.update_self]
      exact ha
    · rw [Function.update_of_ne he]
      exact h.busy_not_free t' ht'
  outside := by
    intro t' ht'
    have hne : t' ≠ t := by
      rintro rfl
      exact ht' (h.terminals ▸ mem_append_right _ ht)
    exact (Function.update_of_ne hne _ _).trans (h.outside t' ht')
  count := by
    show n = (busy.filterMap (s.setActivity t a).holds).length
    rw [setActivity_holds, hcount]

/-- A connection that keeps its item. -/
theorem Pool.keepsItem (h : Pool s idle busy) {work : Work} (work' : Work)
    (hwork : s.activity t = .working work) (hitem : work'.item = work.item) :
    Pool (s.setActivity t (.working work')) idle busy := by
  have hbusy := h.mem_busy (by rw [hwork]; exact Activity.noConfusion)
    (by rw [hwork]; exact Activity.noConfusion)
  refine h.setActivity hbusy Activity.noConfusion ?_
  have hsame : Function.update s.holds t (Activity.working work').item = s.holds := by
    rw [show (Activity.working work').item = s.holds t by
      rw [holds_eq, hwork]; exact congrArg some hitem]
    exact Function.update_eq_self t s.holds
  rw [hsame, h.count]

/-- A connection that gives its item back. -/
theorem Pool.givesBack (h : Pool s idle busy) {work : Work}
    (hwork : s.activity t = .working work) :
    Pool { s.setActivity t .resting with itemsInProcess := s.itemsInProcess - 1 } idle busy := by
  have hbusy := h.mem_busy (by rw [hwork]; exact Activity.noConfusion)
    (by rw [hwork]; exact Activity.noConfusion)
  refine h.setActivity hbusy Activity.noConfusion ?_
  have hperm := filterMap_update_none h.busy_nodup hbusy
    (show s.holds t = some work.item by rw [holds_eq, hwork]; rfl)
  have hlen := hperm.length_eq
  rw [length_cons] at hlen
  rw [h.count, hlen]
  rfl

/-- A connection without an item that changes what it does. -/
theorem Pool.withoutItem (h : Pool s idle busy) (ht : t ∈ busy) (hno : s.holds t = none)
    {a : Activity} (ha : a ≠ .free) (hitem : a.item = none) : Pool (s.setActivity t a) idle busy := by
  refine h.setActivity ht ha ?_
  rw [hitem, ← hno, Function.update_eq_self, h.count]

/-- A connection takes an item and stands at the end of the list then. -/
theorem Pool.takes (h : Pool s idle busy) (s' : State) (t : TerminalId) (item : ItemId)
    {idle' : List TerminalId} (hsub : idle'.Sublist idle) (htb : t ∉ busy)
    (hti : t ∉ idle') (hknown : t ≤ s'.overallTerminals)
    (hoverall : s.overallTerminals ≤ s'.overallTerminals)
    (hterminals : s'.terminals = idle' ++ (busy ++ [t])) (hfree : s'.freeTerminals = idle'.length)
    (hactivity : s'.activity = s.activity) (hcount : s'.itemsInProcess = s.itemsInProcess)
    (hout : ∀ t', t' ∉ s'.terminals → t' ∉ s.terminals) :
    Pool (s'.take item t) idle' (busy ++ [t]) where
  terminals := hterminals
  free := hfree
  nodup := by
    show s'.terminals.Nodup
    have hidle : idle'.Nodup := hsub.nodup (nodup_append'.mp (h.terminals ▸ h.nodup)).1
    have hbusy : (busy ++ [t]).Nodup :=
      nodup_append'.mpr ⟨h.busy_nodup, nodup_singleton t, by simpa using htb⟩
    rw [hterminals]
    refine nodup_append'.mpr ⟨hidle, hbusy, fun x hx hxb => ?_⟩
    rcases mem_append.mp hxb with hb | hb
    · exact h.not_mem_idle hb (hsub.subset hx)
    · exact hti (mem_singleton.mp hb ▸ hx)
  known := by
    intro t' ht'
    have ht' : t' ∈ idle' ++ (busy ++ [t]) := hterminals ▸ ht'
    have hold : ∀ x ∈ idle ++ busy, x ≤ s'.overallTerminals := fun x hx =>
      Nat.le_trans (h.known x (h.terminals ▸ hx)) hoverall
    simp only [mem_append, mem_singleton] at ht'
    rcases ht' with ht' | ht' | rfl
    · exact hold t' (mem_append_left _ (hsub.subset ht'))
    · exact hold t' (mem_append_right _ ht')
    · exact hknown
  idle_free := by
    intro t' ht'
    have hne : t' ≠ t := fun he => hti (he ▸ ht')
    show Function.update s'.activity t _ t' = .free
    rw [Function.update_of_ne hne, hactivity]
    exact h.idle_free t' (hsub.subset ht')
  busy_not_free := by
    intro t' ht'
    show Function.update s'.activity t _ t' ≠ .free
    by_cases he : t' = t
    · rw [he, Function.update_self]
      exact Activity.noConfusion
    · rw [Function.update_of_ne he, hactivity]
      refine h.busy_not_free t' ?_
      simpa [he] using ht'
  outside := by
    intro t' ht'
    replace ht' : t' ∉ s'.terminals := ht'
    have hne : t' ≠ t := by
      rintro rfl
      exact ht' (by rw [hterminals]; simp)
    show Function.update s'.activity t _ t' = .closing
    rw [Function.update_of_ne hne, hactivity]
    exact h.outside t' (hout t' ht')
  count := by
    have hholds : (s'.take item t).holds = Function.update s.holds t (some item) := by
      have : s'.holds = s.holds := by
        funext t'
        rw [holds_eq, holds_eq, hactivity]
      rw [← this]
      exact setActivity_holds s' t (.working ⟨item, .taken, false⟩)
    have hothers : busy.filterMap (Function.update s.holds t (some item)) = busy.filterMap s.holds :=
      filterMap_congr fun x hx =>
        Function.update_of_ne (fun he : x = t => htb (he ▸ hx)) _ _
    show s'.itemsInProcess + 1 = _
    rw [hholds, filterMap_append, hothers, hcount, h.count]
    simp

theorem processEvent_cases (s : State) :
    s.processEvent = s ∨ ∃ item, s.items[s.itemsInProcess]? = some item ∧
      ((s.roomForTerminal = true ∧
          s.processEvent = s.newTerminal.take item s.newTerminal.overallTerminals) ∨
        ∃ free t rest, s.freeTerminals = free + 1 ∧ s.terminals = t :: rest ∧
          s.processEvent = { s with
            terminals := move (t :: rest) 0 rest.length, freeTerminals := free }.take item t) := by
  unfold State.processEvent
  split
  next => exact .inl rfl
  next item hitem =>
    split
    next =>
      split
      next hroom => exact .inr ⟨item, hitem, .inl ⟨hroom, rfl⟩⟩
      next =>
        split
        next free t rest hfree hterminals =>
          exact .inr ⟨item, hitem, .inr ⟨free, t, rest, hfree, hterminals, rfl⟩⟩
        next => exact .inl rfl
    next => exact .inl rfl

theorem Pool.processEvent (h : Pool s idle busy) :
    ∃ idle busy, Pool s.processEvent idle busy := by
  obtain he | ⟨item, -, ⟨hroom, he⟩ | ⟨free, t, rest, hfree, hterminals, he⟩⟩ :=
    processEvent_cases s
  · exact ⟨idle, busy, he.symm ▸ h⟩
  · have hfree : s.freeTerminals = 0 := by
      rw [State.roomForTerminal, Bool.and_eq_true, beq_iff_eq] at hroom
      exact hroom.1
    have hidle : idle = [] := length_eq_zero_iff.mp (h.free ▸ hfree)
    subst hidle
    have hnew : s.overallTerminals + 1 ∉ s.terminals := fun hmem =>
      Nat.not_succ_le_self _ (h.known _ hmem)
    rw [he]
    refine ⟨[], _, h.takes s.newTerminal s.newTerminal.overallTerminals item (List.Sublist.refl _)
      ?_ not_mem_nil (Nat.le_refl _) (Nat.le_succ _) ?_ hfree rfl rfl ?_⟩
    · exact fun hmem => hnew (h.terminals ▸ hmem)
    · show s.terminals ++ _ = _
      rw [h.terminals]
      rfl
    · exact fun t' ht' hmem => ht' (mem_append_left _ hmem)
  · obtain ⟨idle', rfl⟩ : ∃ idle', idle = t :: idle' := by
      have hlen := h.free
      cases idle with
      | nil => rw [hfree] at hlen; cases hlen
      | cons t' idle' =>
        have := h.terminals
        rw [hterminals] at this
        exact ⟨idle', by rw [(cons_eq_cons.mp this).1]⟩
    obtain rfl : rest = idle' ++ busy := (cons_eq_cons.mp (hterminals.symm.trans h.terminals)).2
    have hnodup := h.nodup
    rw [hterminals, nodup_cons, mem_append, not_or] at hnodup
    have hback := move_to_back [] t (idle' ++ busy)
    simp only [nil_append, length_nil, Nat.zero_add] at hback
    rw [he]
    refine ⟨idle', _, h.takes _ t item (sublist_cons_self _ _) hnodup.1.2 hnodup.1.1 ?_
      (Nat.le_refl _) ?_ ?_ rfl rfl ?_⟩
    · exact h.known t (hterminals ▸ mem_cons_self)
    · exact hback.trans (append_assoc _ _ _)
    · have := h.free
      rw [hfree, length_cons] at this
      exact Nat.succ.inj this
    · intro t' ht' hmem
      rw [hterminals] at hmem
      exact ht' (((move_perm _ 0 (by simp)).mem_iff).mpr hmem)

/-- A connection without an item leaves its place. -/
theorem Pool.leaves (h : Pool s idle busy) (s' : State) (t : TerminalId) (ht : t ∈ s.terminals)
    (hno : s.holds t = none) {a : Activity} (hitem : a.item = none)
    (idle' busy' : List TerminalId) (hterminals : s'.terminals = idle' ++ busy')
    (hfree : s'.freeTerminals = idle'.length) (hperm : (idle' ++ busy').Perm (idle ++ busy))
    (hoverall : s'.overallTerminals = s.overallTerminals)
    (hactivity : s'.activity = Function.update s.activity t a)
    (hidle : ∀ t' ∈ idle', (t' ∈ idle ∧ t' ≠ t) ∨ (t' = t ∧ a = .free))
    (hbusy : ∀ t' ∈ busy', (t' ∈ busy ∧ t' ≠ t) ∨ (t' = t ∧ a ≠ .free))
    (hcount : s'.itemsInProcess = s.itemsInProcess)
    (hlength : (busy'.filterMap s.holds).length = (busy.filterMap s.holds).length) :
    Pool s' idle' busy' where
  terminals := hterminals
  free := hfree
  nodup := by
    rw [hterminals, hperm.nodup_iff, ← h.terminals]
    exact h.nodup
  known := by
    intro t' ht'
    rw [hterminals, hperm.mem_iff, ← h.terminals] at ht'
    rw [hoverall]
    exact h.known t' ht'
  idle_free := by
    intro t' ht'
    rw [hactivity]
    rcases hidle t' ht' with ⟨hmem, hne⟩ | ⟨rfl, ha⟩
    · rw [Function.update_of_ne hne]
      exact h.idle_free t' hmem
    · rw [Function.update_self, ha]
  busy_not_free := by
    intro t' ht'
    rw [hactivity]
    rcases hbusy t' ht' with ⟨hmem, hne⟩ | ⟨rfl, ha⟩
    · rw [Function.update_of_ne hne]
      exact h.busy_not_free t' hmem
    · rwa [Function.update_self]
  outside := by
    intro t' ht'
    rw [hterminals, hperm.mem_iff, ← h.terminals] at ht'
    have hne : t' ≠ t := by
      rintro rfl
      exact ht' ht
    rw [hactivity, Function.update_of_ne hne]
    exact h.outside t' ht'
  count := by
    have hholds : s'.holds = s.holds := by
      funext t'
      rw [holds_eq, holds_eq, hactivity]
      by_cases he : t' = t
      · rw [he, Function.update_self, hitem, ← holds_eq, hno]
      · rw [Function.update_of_ne he]
    rw [hcount, hholds, hlength, h.count]

theorem Pool.terminalFree (h : Pool s idle busy) (hresting : s.activity t = .resting) :
    ∃ idle busy, Pool (s.terminalFree t) idle busy := by
  have ht := h.mem_busy (by rw [hresting]; exact Activity.noConfusion)
    (by rw [hresting]; exact Activity.noConfusion)
  have hno : s.holds t = none := by rw [holds_eq, hresting]; rfl
  have hmem : t ∈ s.terminals := h.terminals ▸ mem_append_right _ ht
  unfold State.terminalFree
  dsimp only
  split
  next =>
    have hmove : move s.terminals (s.terminals.idxOf t) 0 = t :: idle ++ busy.erase t := by
      rw [move_to_front hmem, h.terminals, erase_append_right _ (h.not_mem_idle ht)]
      rfl
    refine ⟨t :: idle, busy.erase t, h.leaves _ t hmem hno (a := .free) rfl _ _ hmove ?_ ?_ rfl rfl
      (fun t' ht' => ?_) (fun t' ht' => ?_) rfl (filterMap_erase_none ht hno).length_eq⟩
    · exact congrArg (· + 1) h.free
    · have := (perm_cons_erase ht).symm.append_left idle
      exact perm_middle.symm.trans this
    · rcases mem_cons.mp ht' with rfl | hmem
      · exact .inr ⟨rfl, rfl⟩
      · exact .inl ⟨hmem, fun he => h.not_mem_idle ht (he ▸ hmem)⟩
    · exact .inl ⟨mem_of_mem_erase ht', fun he => h.busy_nodup.not_mem_erase (he ▸ ht')⟩
  next => exact ⟨idle, busy, h.withoutItem ht hno Activity.noConfusion rfl⟩

theorem Pool.idles (h : Pool s idle busy) : ∃ idle busy, Pool s.idle idle busy := by
  unfold State.idle
  split
  next => exact ⟨idle, busy, h⟩
  next free hfree =>
    split
    next => exact ⟨idle, busy, h⟩
    next t hget =>
      obtain ⟨idle, x, rfl⟩ : ∃ idle' x, idle = idle' ++ [x] := by
        rcases eq_nil_or_concat idle with rfl | ⟨idle', x, rfl⟩
        · have := h.free
          rw [hfree] at this
          cases this
        · exact ⟨idle', x, concat_eq_append⟩
      have hlen : free = idle.length := by
        have := h.free
        rw [hfree, length_append] at this
        exact Nat.succ.inj this
      have hterminals : s.terminals = idle ++ x :: busy := by rw [h.terminals]; simp
      obtain rfl : t = x := by
        rw [hterminals, hlen, getElem?_append_right (Nat.le_refl _)] at hget
        simpa using hget.symm
      have hmove : move s.terminals free (s.terminals.length - 1) = idle ++ (busy ++ [t]) := by
        have hlast : s.terminals.length - 1 = idle.length + busy.length := by
          rw [hterminals]
          simp
        rw [hlast, hterminals, hlen, move_to_back, append_assoc]
      have hno : s.holds t = none := h.free_holds (hfree ▸ Nat.lt_succ_self _) hget
      have hnodup := h.nodup
      rw [hterminals, nodup_middle, nodup_cons, mem_append, not_or] at hnodup
      refine ⟨idle, busy ++ [t], h.leaves _ t ?_ hno (a := .resting) rfl _ _ hmove hlen ?_ rfl rfl
        (fun t' ht' => ?_) (fun t' ht' => ?_) rfl ?_⟩
      · rw [hterminals]
        simp
      · rw [append_assoc]
        have hcomm : (busy ++ [t]).Perm ([t] ++ busy) := perm_append_comm
        exact hcomm.append_left idle
      · exact .inl ⟨mem_append_left _ ht', fun he => hnodup.1.1 (he ▸ ht')⟩
      · rcases mem_append.mp ht' with hmem | hmem
        · exact .inl ⟨hmem, fun he => hnodup.1.2 (he ▸ hmem)⟩
        · exact .inr ⟨mem_singleton.mp hmem, Activity.noConfusion⟩
      · rw [filterMap_append, filterMap_cons_none hno]
        simp

theorem Pool.terminalFinished (h : Pool s idle busy) (hclosing : s.activity t = .closing)
    (hmem : t ∈ s.terminals) : Pool (s.terminalFinished t) idle (busy.erase t) := by
  have hidle : t ∉ idle := fun hidle => by
    rw [h.idle_free t hidle] at hclosing
    cases hclosing
  have ht : t ∈ busy := by
    rw [h.terminals, mem_append] at hmem
    exact hmem.resolve_left hidle
  have hno : s.holds t = none := by rw [holds_eq, hclosing]; rfl
  have herase : s.terminals.erase t = idle ++ busy.erase t := by
    rw [h.terminals, erase_append_right _ hidle]
  have hindex : ¬ s.terminals.idxOf t < s.freeTerminals := by
    rw [h.terminals, h.free, idxOf_append_of_notMem hidle]
    omega
  exact {
    terminals := herase
    free := (if_neg hindex).trans h.free
    nodup := h.nodup.erase t
    known := fun t' ht' => h.known t' (mem_of_mem_erase ht')
    idle_free := h.idle_free
    busy_not_free := fun t' ht' => h.busy_not_free t' (mem_of_mem_erase ht')
    outside := by
      intro t' ht'
      by_cases he : t' = t
      · exact he ▸ hclosing
      · exact h.outside t' fun hmem' => ht' ((mem_erase_of_ne he).mpr hmem')
    count := h.count.trans (filterMap_erase_none ht hno).length_eq.symm }

theorem workAt_some {stage : Stage} {work : Work} (h : s.workAt t stage = some work) :
    s.activity t = .working work ∧ work.stage = stage := by
  unfold State.workAt at h
  split at h
  next work' hwork =>
    rw [Option.ite_none_right_eq_some] at h
    obtain ⟨hstage, hsome⟩ := h
    obtain rfl := Option.some.inj hsome
    exact ⟨hwork, hstage⟩
  next => cases h

theorem locked_some {next : State} (h : s.locked next = some s') :
    s.deleting = none ∧ s' = next := by
  rw [State.locked, Option.ite_none_right_eq_some] at h
  exact ⟨h.1, (Option.some.inj h.2).symm⟩

/-- Every action keeps the connections in order. -/
theorem Pool.step (h : Pool s idle busy) {a : Action} (hs : step s a = some s') :
    ∃ idle busy, Pool s' idle busy := by
  have hframe : ∀ {u : State}, u.terminals = s.terminals → u.freeTerminals = s.freeTerminals →
      u.overallTerminals = s.overallTerminals → u.activity = s.activity →
      u.itemsInProcess = s.itemsInProcess → ∃ idle busy, Pool u idle busy :=
    fun h1 h2 h3 h4 h5 => ⟨idle, busy, h.frame h1 h2 h3 h4 h5⟩
  cases a with
  | addItem =>
    obtain ⟨-, rfl⟩ := locked_some hs
    exact hframe rfl rfl rfl rfl rfl
  | itemMove item beforeItem =>
    obtain ⟨-, rfl⟩ := locked_some hs
    unfold State.itemMove
    split <;> exact hframe rfl rfl rfl rfl rfl
  | itemExecuteNow item =>
    obtain ⟨-, rfl⟩ := locked_some hs
    unfold State.itemExecuteNow
    split <;> exact hframe rfl rfl rfl rfl rfl
  | itemDelete item =>
    obtain ⟨-, rfl⟩ := locked_some hs
    unfold State.itemDelete
    split
    · split <;> exact hframe rfl rfl rfl rfl rfl
    · exact hframe rfl rfl rfl rfl rfl
  | cancel =>
    obtain ⟨item, -, rfl⟩ := Option.map_eq_some_iff.mp hs
    unfold State.cancel
    split <;> exact hframe rfl rfl rfl rfl rfl
  | setTransfersLimit value =>
    obtain ⟨-, rfl⟩ := locked_some hs
    unfold State.setTransfersLimit
    split <;> exact hframe rfl rfl rfl rfl rfl
  | setEnabled value =>
    obtain ⟨-, rfl⟩ := locked_some hs
    exact hframe rfl rfl rfl rfl rfl
  | processEvent =>
    rw [Queue.step, Option.ite_none_right_eq_some] at hs
    obtain ⟨-, rfl⟩ := locked_some hs.2
    exact h.processEvent
  | process =>
    obtain ⟨t, -, hs⟩ := Option.bind_eq_some_iff.mp hs
    obtain ⟨work, hwork, rfl⟩ := Option.map_eq_some_iff.mp hs
    exact ⟨idle, busy, (h.keepsItem { work with stage := .given } (workAt_some hwork).1 rfl).frame
      rfl rfl rfl rfl rfl⟩
  | expire item =>
    obtain ⟨-, rfl⟩ := locked_some hs
    exact hframe rfl rfl rfl rfl rfl
  | idle =>
    obtain ⟨-, rfl⟩ := locked_some hs
    exact h.idles
  | attach t active =>
    obtain ⟨work, hwork, rfl⟩ := Option.map_eq_some_iff.mp hs
    exact ⟨idle, busy, (h.keepsItem { work with stage := .attached, opened := active }
      (workAt_some hwork).1 rfl).frame rfl rfl rfl rfl rfl⟩
  | opened t =>
    obtain ⟨work, hwork, rfl⟩ := Option.map_eq_some_iff.mp hs
    exact ⟨idle, busy, h.keepsItem _ (workAt_some hwork).1 rfl⟩
  | setStatus t status =>
    rw [Queue.step, Option.ite_none_left_eq_some] at hs
    obtain ⟨work, -, rfl⟩ := Option.map_eq_some_iff.mp hs.2
    exact hframe rfl rfl rfl rfl rfl
  | errorCancelled t =>
    obtain ⟨work, -, rfl⟩ := Option.map_eq_some_iff.mp hs
    exact hframe rfl rfl rfl rfl rfl
  | ended t =>
    obtain ⟨work, hwork, rfl⟩ := Option.map_eq_some_iff.mp hs
    exact ⟨idle, busy, (h.keepsItem { work with stage := .ended } (workAt_some hwork).1 rfl).frame
      rfl rfl rfl rfl rfl⟩
  | detach t =>
    obtain ⟨work, hwork, rfl⟩ := Option.map_eq_some_iff.mp hs
    exact ⟨idle, busy, (h.keepsItem { work with stage := .detached } (workAt_some hwork).1 rfl).frame
      rfl rfl rfl rfl rfl⟩
  | giveBack t complete =>
    obtain ⟨work, hwork, hs⟩ := Option.bind_eq_some_iff.mp hs
    obtain ⟨-, rfl⟩ := locked_some hs
    have hback := h.givesBack (workAt_some hwork).1
    unfold State.giveBack
    dsimp only
    split <;> exact ⟨idle, busy, hback.frame rfl rfl rfl rfl rfl⟩
  | release t active =>
    rw [Queue.step, Option.ite_none_right_eq_some] at hs
    obtain ⟨hresting, hs⟩ := hs
    split at hs
    next =>
      obtain ⟨-, rfl⟩ := locked_some hs
      exact h.terminalFree hresting
    next =>
      obtain rfl := Option.some.inj hs
      have ht := h.mem_busy (by rw [hresting]; exact Activity.noConfusion)
        (by rw [hresting]; exact Activity.noConfusion)
      exact ⟨idle, busy, h.withoutItem ht (by rw [holds_eq, hresting]; rfl)
        Activity.noConfusion rfl⟩
  | finished t =>
    rw [Queue.step, Option.ite_none_right_eq_some] at hs
    obtain ⟨⟨hclosing, hmem⟩, hs⟩ := hs
    obtain ⟨-, rfl⟩ := locked_some hs
    exact ⟨idle, _, h.terminalFinished hclosing hmem⟩

end Pool

/-- The connections are counted right in every run: the free ones stand in front, the items
in process are those that the others have, and no connection has an item without being in the
list. -/
theorem connections_reached {s : State} (h : Reaches step (fun _ _ => True) State.init s) :
    s.terminals.Nodup ∧ s.freeTerminals ≤ s.terminals.length ∧
    (∀ t ∈ s.terminals.take s.freeTerminals, s.activity t = .free) ∧
    (∀ t ∈ s.terminals.drop s.freeTerminals, s.activity t ≠ .free) ∧
    (∀ t, s.holds t ≠ none → t ∈ s.terminals.drop s.freeTerminals) ∧
    s.itemsInProcess = ((s.terminals.drop s.freeTerminals).filterMap s.holds).length := by
  obtain ⟨idle, busy, hpool⟩ := h.invariant (P := fun s => ∃ idle busy, Pool s idle busy)
    ⟨[], [], init_pool⟩ fun s a s' ⟨idle, busy, hpool⟩ _ hs => hpool.step hs
  have hnodup := hpool.nodup
  rw [hpool.terminals] at hnodup ⊢
  rw [hpool.free, take_left, drop_left, length_append]
  refine ⟨hnodup, Nat.le_add_right _ _, hpool.idle_free, hpool.busy_not_free, fun t ht => ?_,
    hpool.count⟩
  rw [holds_eq] at ht
  exact hpool.mem_busy (fun hclosing => ht (by rw [hclosing]; rfl))
    fun hfree => ht (by rw [hfree]; rfl)

/-- Two items are handed to two new connections, and the first of these is free again. -/
theorem connections_reached_two : ∃ s, Reaches step (fun _ _ => True) State.init s ∧
    s.freeTerminals = 1 ∧
    s.itemsInProcess = ((s.terminals.drop s.freeTerminals).filterMap s.holds).length := by
  obtain ⟨s, hs, hfree⟩ := exists_reaches (f := State.freeTerminals)
    (show (runs step (fun _ _ => True) State.init
      [.addItem, .addItem, .processEvent, .process, .processEvent, .process, .attach 1 true,
        .ended 1, .detach 1, .giveBack 1 true, .release 1 true]).map _ = some 1 by decide)
  exact ⟨s, hs, hfree, (connections_reached hs).2.2.2.2.2⟩

end NetBox.Queue
