import NetBox.Queue.Pool

/-! # The limit of transfers

An item that the user did not ask for is taken into processing only while fewer
items than the limit are in process.

`ProcessEvent` looks at the limit when it makes a connection, and counts the
temporary ones in then, whichever item they were granted for. It uses a free
connection without looking at the limit at all, though the limit may have been
lowered, and though a connection behind the limit may still be at work.
-/
namespace NetBox.Queue
open Lib.Run Lib.Holders

/-- No item was taken above the limit, except for those the user asked for. -/
def WithinLimit (s : State) : Prop :=
  ∀ e ∈ s.started, 0 < e.transfersLimit →
    e.requested = true ∨ (e.itemsInProcess : Int) < e.transfersLimit

instance (s : State) : Decidable (WithinLimit s) :=
  inferInstanceAs (Decidable (∀ e ∈ s.started, _))

/-- A limit is not set below the number of connections, and `ItemExecuteNow` is called
while there are fewer connections than the limit or one of them is free. -/
def LimitKept (s : State) : Action → Prop
  | .setTransfersLimit value => 0 < value → (s.terminals.length : Int) ≤ value
  | .itemExecuteNow _ =>
    0 < s.transfersLimit → (s.terminals.length : Int) < s.transfersLimit ∨ 0 < s.freeTerminals
  | _ => True

instance (s : State) (a : Action) : Decidable (LimitKept s a) := by
  unfold LimitKept
  split <;> infer_instance

/-- There are no more connections than the limit, and none is granted beyond it. -/
def Capped (s : State) : Prop :=
  0 < s.transfersLimit → (s.terminals.length : Int) ≤ s.transfersLimit ∧ s.temporaryTerminals = 0

def Action.makesRoom : Action → Bool
  | .processEvent | .itemExecuteNow _ | .setTransfersLimit _ => true
  | _ => false

/-- No item was taken, and there is no more room than before. -/
structure Frames (s s' : State) : Prop where
  started : s'.started = s.started
  transfersLimit : s'.transfersLimit = s.transfersLimit
  terminals : s'.terminals.length ≤ s.terminals.length
  temporaryTerminals : s'.temporaryTerminals ≤ s.temporaryTerminals

variable {s s' : State}

theorem Frames.capped (h : Frames s s') (hs : Capped s) : Capped s' := by
  intro hpos
  rw [h.transfersLimit] at hpos ⊢
  have hle := h.terminals
  have htemporary := h.temporaryTerminals
  have hcapped := hs hpos
  omega

theorem Frames.of_eq (h : (s'.started, s'.transfersLimit, s'.terminals, s'.temporaryTerminals) =
    (s.started, s.transfersLimit, s.terminals, s.temporaryTerminals)) : Frames s s' := by
  simp only [Prod.mk.injEq] at h
  exact ⟨h.1, h.2.1, Nat.le_of_eq (by rw [h.2.2.1]), Nat.le_of_eq h.2.2.2⟩

/-- Items are taken by `ProcessEvent` only, and room is made by two calls of the user. -/
theorem step_frames {a : Action} (ha : a.makesRoom = false) (hs : step s a = some s') :
    Frames s s' := by
  cases a with
  | processEvent | itemExecuteNow | setTransfersLimit => cases ha
  | addItem => obtain ⟨-, rfl⟩ := locked_some hs; exact .of_eq rfl
  | itemMove item beforeItem =>
    obtain ⟨-, rfl⟩ := locked_some hs
    unfold State.itemMove
    split <;> exact .of_eq rfl
  | itemDelete item =>
    obtain ⟨-, rfl⟩ := locked_some hs
    unfold State.itemDelete
    split
    · split <;> exact .of_eq rfl
    · exact .of_eq rfl
  | cancel =>
    obtain ⟨item, -, rfl⟩ := Option.map_eq_some_iff.mp hs
    unfold State.cancel
    split <;> exact .of_eq rfl
  | setEnabled value => obtain ⟨-, rfl⟩ := locked_some hs; exact .of_eq rfl
  | process =>
    obtain ⟨t, -, hs⟩ := Option.bind_eq_some_iff.mp hs
    obtain ⟨work, -, rfl⟩ := Option.map_eq_some_iff.mp hs
    exact .of_eq rfl
  | expire item => obtain ⟨-, rfl⟩ := locked_some hs; exact .of_eq rfl
  | idle =>
    obtain ⟨-, rfl⟩ := locked_some hs
    unfold State.idle
    split
    · exact .of_eq rfl
    · split
      · exact .of_eq rfl
      · exact ⟨rfl, rfl, length_move_le .., Nat.le.refl⟩
  | setStatus t status =>
    rw [step, Option.ite_none_left_eq_some] at hs
    obtain ⟨work, -, rfl⟩ := Option.map_eq_some_iff.mp hs.2
    exact .of_eq rfl
  | attach | opened | errorCancelled | ended | detach =>
    obtain ⟨work, -, rfl⟩ := Option.map_eq_some_iff.mp hs
    exact .of_eq rfl
  | giveBack t complete =>
    obtain ⟨work, -, hs⟩ := Option.bind_eq_some_iff.mp hs
    obtain ⟨-, rfl⟩ := locked_some hs
    unfold State.giveBack
    dsimp only
    split <;> exact .of_eq rfl
  | release t active =>
    rw [step, Option.ite_none_right_eq_some] at hs
    obtain ⟨-, hs⟩ := hs
    split at hs
    next =>
      obtain ⟨-, rfl⟩ := locked_some hs
      unfold State.terminalFree
      dsimp only
      split
      · exact ⟨rfl, rfl, length_move_le .., Nat.le.refl⟩
      · exact .of_eq rfl
    next =>
      obtain rfl := Option.some.inj hs
      exact .of_eq rfl
  | finished t =>
    rw [step, Option.ite_none_right_eq_some] at hs
    obtain ⟨-, rfl⟩ := locked_some hs.2
    refine ⟨rfl, rfl, List.length_erase_le, ?_⟩
    dsimp only [State.terminalFinished]
    split
    · exact Nat.sub_le _ _
    · exact Nat.le.refl

/-- The two calls of the user take no item, and a limit that is kept caps the connections. -/
theorem Capped.itemExecuteNow (h : Capped s) {item : ItemId}
    (hok : LimitKept s (.itemExecuteNow item)) :
    Capped (s.itemExecuteNow item) ∧ (s.itemExecuteNow item).started = s.started := by
  unfold State.itemExecuteNow
  split
  · refine ⟨fun hpos => ?_, rfl⟩
    dsimp only at hpos ⊢
    have hroom := hok hpos
    rw [if_neg (by omega)]
    exact h hpos
  · exact ⟨h, rfl⟩

theorem Capped.setTransfersLimit (h : Capped s) {value : Int} {idle busy : List TerminalId}
    (hpool : Pool s idle busy) (hok : LimitKept s (.setTransfersLimit value)) :
    Capped (s.setTransfersLimit value) ∧ (s.setTransfersLimit value).started = s.started := by
  have hle := hpool.itemsInProcess_le
  unfold State.setTransfersLimit
  split
  · exact ⟨h, rfl⟩
  · refine ⟨fun hpos => ?_, rfl⟩
    dsimp only at hpos ⊢
    have hvalue := hok hpos
    rw [if_neg (by omega)]
    exact ⟨hvalue, rfl⟩

/-- An item is taken by a new connection below the limit, or by a free one, besides which
there are fewer than the limit. -/
theorem Capped.processEvent (h : Capped s) (hlimit : WithinLimit s) {idle busy : List TerminalId}
    (hpool : Pool s idle busy) : Capped s.processEvent ∧ WithinLimit s.processEvent := by
  have hle := hpool.itemsInProcess_le
  have hstart : ∀ {item : ItemId}, (0 < s.transfersLimit → (s.itemsInProcess : Int) < s.transfersLimit) →
      ∀ e ∈ (⟨item, s.requested.contains item, s.itemsInProcess, s.transfersLimit⟩ : Start) ::
        s.started, 0 < e.transfersLimit →
          e.requested = true ∨ (e.itemsInProcess : Int) < e.transfersLimit :=
    fun hbelow => List.forall_mem_cons.mpr ⟨fun hpos => .inr (hbelow hpos), hlimit⟩
  obtain he | ⟨item, -, ⟨hroom, he⟩ | ⟨free, t, rest, hfree, hterminals, he⟩⟩ := processEvent_cases s
  · rw [he]
    exact ⟨h, hlimit⟩
  · simp only [State.roomForTerminal, Bool.and_eq_true, beq_iff_eq, Bool.or_eq_true,
      decide_eq_true_eq] at hroom
    have hbelow : 0 < s.transfersLimit → (s.terminals.length : Int) < s.transfersLimit := by
      intro hpos
      have hcapped := h hpos
      omega
    rw [he]
    refine ⟨fun hpos => ?_, hstart fun hpos => ?_⟩
    · have hlength : (s.terminals ++ [s.overallTerminals + 1]).length = s.terminals.length + 1 :=
        List.length_append
      have hroom := hbelow hpos
      refine ⟨?_, (h hpos).2⟩
      show ((s.terminals ++ [s.overallTerminals + 1]).length : Int) ≤ s.transfersLimit
      omega
    · have hroom := hbelow hpos
      omega
  · rw [he]
    have hmove := length_move_le (t :: rest) 0 rest.length
    rw [← hterminals] at hmove
    refine ⟨fun hpos => ?_, hstart fun hpos => ?_⟩
    · refine ⟨?_, (h hpos).2⟩
      have hcapped := (h hpos).1
      show ((move (t :: rest) 0 rest.length).length : Int) ≤ s.transfersLimit
      rw [← hterminals]
      omega
    · have hcapped := (h hpos).1
      have hpositive : 0 < s.terminals.length := by simp [hterminals]
      omega

/-- No item is taken above the limit in a run in which no limit is set below the number of
connections, and in which the user asks for an item while there is room for it. -/
theorem limit_respected (h : Reaches step LimitKept State.init s) : WithinLimit s := by
  have hinv : (∃ idle busy, Pool s idle busy) ∧ Capped s ∧ WithinLimit s := by
    refine h.invariant (P := fun s => (∃ idle busy, Pool s idle busy) ∧ Capped s ∧ WithinLimit s)
      ⟨⟨[], [], init_pool⟩, fun _ => ⟨by decide, rfl⟩, nofun⟩ ?_
    rintro s a s' ⟨⟨idle, busy, hpool⟩, hcapped, hlimit⟩ hok hs
    have hstarted : ∀ {u : State}, Capped u ∧ u.started = s.started → Capped u ∧ WithinLimit u :=
      fun hu => ⟨hu.1, by rw [WithinLimit, hu.2]; exact hlimit⟩
    refine ⟨hpool.step hs, ?_⟩
    cases a with
    | processEvent =>
      rw [step, Option.ite_none_right_eq_some] at hs
      obtain ⟨-, rfl⟩ := locked_some hs.2
      exact hcapped.processEvent hlimit hpool
    | itemExecuteNow item =>
      obtain ⟨-, rfl⟩ := locked_some hs
      exact hstarted (hcapped.itemExecuteNow hok)
    | setTransfersLimit value =>
      obtain ⟨-, rfl⟩ := locked_some hs
      exact hstarted (hcapped.setTransfersLimit hpool hok)
    | _ =>
      have hframes := step_frames rfl hs
      exact hstarted ⟨hframes.capped hcapped, hframes.started⟩
  exact hinv.2.2

/-- What a connection does from the item on that it was given, up to being free. -/
def transfer (t : TerminalId) : List Action :=
  [.attach t true, .setStatus t .processing, .ended t, .detach t, .giveBack t true, .release t true]

/-- A third item waits until a connection is free, and a fourth one has a higher limit. -/
theorem limit_respected_two : ∃ s, Reaches step LimitKept State.init s ∧
    s.started.length = 4 ∧ s.items.length = 3 ∧ WithinLimit s := by
  have hrun : (runs step LimitKept State.init
      ([.addItem, .addItem, .addItem, .processEvent, .process, .processEvent, .process,
        .processEvent] ++ transfer 1 ++ [.itemExecuteNow 2, .processEvent, .process,
        .setTransfersLimit 3, .addItem, .processEvent])).map
        (fun s => (s.started.length, s.items.length)) = some (4, 3) := by decide
  obtain ⟨s, hs, hf⟩ := exists_reaches hrun
  obtain ⟨hstarted, hitems⟩ := Prod.mk.inj hf
  exact ⟨s, hs, hstarted, hitems, limit_respected hs⟩

/-- The limit is lowered to one while two connections are free, and both are
used for the next two items. -/
theorem lowered_limit_exceeded : ∃ s, Reaches step (fun _ _ => True) State.init s ∧ ¬ WithinLimit s := by
  have hrun : (runs step (fun _ _ => True) State.init
      ([.addItem, .addItem, .processEvent, .process, .processEvent, .process] ++
        transfer 1 ++ transfer 2 ++
        [.setTransfersLimit 1, .addItem, .addItem, .processEvent, .process, .processEvent])).map
        (fun s => decide (WithinLimit s)) = some false := by decide
  obtain ⟨s, hs, hf⟩ := exists_reaches hrun
  exact ⟨s, hs, of_decide_eq_false hf⟩

end NetBox.Queue
