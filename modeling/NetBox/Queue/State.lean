import NetBox.Lib.Run
import NetBox.Lib.Holders

/-! # The queue of background transfers

`TTerminalQueue` keeps the items that wait and those that are transferred in one
list, the latter in front. Its thread hands the first item that waits to a
connection, `TTerminalItem`, which has a thread of its own. The connections
without work stand at the front of their list.

Everything in one critical section is one action. What a thread does without the
lock of the queue is an action of its own: the queue's thread gives the item to
the connection after it has left the lock, and the connection changes the item
before and after the transfer. `ItemDelete` is two actions, since the connection
can act between the check of the status and the use of the connection, while the
queue is locked (`deleting`).

Closing the queue is left out, and so is what a transfer does.
-/
namespace NetBox.Queue
open Lib.Holders Lib.Run

abbrev ItemId := Nat
abbrev TerminalId := Nat

inductive Status
  | pending | connecting | processing | prompt | query | error | paused | done
  deriving DecidableEq

/-- How far a connection is with its item. -/
inductive Stage
  /-- chosen by the queue -/
  | taken
  /-- `FItem` is set -/
  | given
  /-- the item has its `FTerminalItem` -/
  | attached
  /-- the status of the item is `qsDone` -/
  | ended
  /-- the item has no `FTerminalItem` any more -/
  | detached
  deriving DecidableEq

structure Work where
  item : ItemId
  stage : Stage
  /-- the connection was opened, so that the item is not tried again -/
  opened : Bool
  deriving DecidableEq

/-- What a connection is doing. -/
inductive Activity
  | free
  | working (work : Work)
  /-- it has no item, and is not among the free connections -/
  | resting
  /-- its thread ends -/
  | closing
  deriving DecidableEq

/-- An item was used in a way that only another state of it allows. -/
inductive Fault
  /-- destroyed while a connection held it -/
  | destroyed (item : ItemId)
  /-- to be cancelled without a connection -/
  | noTerminal (item : ItemId)
  deriving DecidableEq

/-- An item was taken into processing, with what was known then. -/
structure Start where
  item : ItemId
  requested : Bool
  itemsInProcess : Nat
  transfersLimit : Int
  deriving DecidableEq

structure State where
  items : List ItemId
  itemsInProcess : Nat
  forcedItems : List ItemId
  doneItems : List ItemId
  terminals : List TerminalId
  freeTerminals : Nat
  temporaryTerminals : Nat
  transfersLimit : Int
  enabled : Bool
  status : ItemId → Status
  terminalItem : ItemId → Option TerminalId
  activity : TerminalId → Activity
  cancelled : TerminalId → Bool
  nextItem : ItemId
  overallTerminals : TerminalId
  /-- the item that `ItemDelete` is going to cancel, with the queue locked -/
  deleting : Option ItemId
  /-- the connection that the queue's thread has to give its item -/
  giving : Option TerminalId
  /-- the items that `ItemExecuteNow` was called for -/
  requested : List ItemId
  started : List Start
  faults : List Fault

/-- The queue as it is created. -/
def State.init : State where
  items := []
  itemsInProcess := 0
  forcedItems := []
  doneItems := []
  terminals := []
  freeTerminals := 0
  temporaryTerminals := 0
  transfersLimit := 2
  enabled := true
  status _ := .pending
  terminalItem _ := none
  activity _ := .closing
  cancelled _ := false
  nextItem := 0
  overallTerminals := 0
  deleting := none
  giving := none
  requested := []
  started := []
  faults := []

/-- The item a connection has. -/
def State.holds (s : State) (t : TerminalId) : Option ItemId :=
  match s.activity t with
  | .working work => some work.item
  | _ => none

def State.setActivity (s : State) (t : TerminalId) (activity : Activity) : State :=
  { s with activity := Function.update s.activity t activity }

def State.setStatus (s : State) (item : ItemId) (status : Status) : State :=
  { s with status := Function.update s.status item status }

/-! ## The user's thread -/

def State.addItem (s : State) : State :=
  { s.setStatus s.nextItem .pending with
    items := s.items ++ [s.nextItem], nextItem := s.nextItem + 1 }

def State.itemMove (s : State) (item beforeItem : ItemId) : State :=
  if item ∈ s.items ∧ beforeItem ∈ s.items ∧ s.status item = .pending ∧
      s.status beforeItem = .pending then
    { s with items := move s.items (s.items.idxOf item) (s.items.idxOf beforeItem) }
  else s

def State.itemExecuteNow (s : State) (item : ItemId) : State :=
  if item ∈ s.items ∧ s.status item = .pending ∧ s.itemsInProcess ≤ s.items.idxOf item then
    { s with
      items :=
        if s.itemsInProcess < s.items.idxOf item then
          move s.items (s.items.idxOf item) s.itemsInProcess
        else s.items,
      temporaryTerminals :=
        if 0 ≤ s.transfersLimit ∧ s.transfersLimit ≤ s.terminals.length ∧ s.freeTerminals = 0 then
          s.temporaryTerminals + 1
        else s.temporaryTerminals,
      forcedItems := s.forcedItems ++ [item],
      requested := item :: s.requested }
  else s

/-- Destroys an item. -/
def State.destroy (s : State) (item : ItemId) : State :=
  { s with faults :=
      if s.terminals.any (fun t => s.holds t == some item) then .destroyed item :: s.faults
      else s.faults }

/-- `ItemDelete` up to the call of `Cancel`. -/
def State.itemDelete (s : State) (item : ItemId) : State :=
  if item ∈ s.items then
    if s.status item = .pending then
      { s.destroy item with
        items := s.items.erase item, forcedItems := s.forcedItems.erase item }
    else { s with deleting := some item }
  else { s with doneItems := s.doneItems.erase item }

/-- The call of `Cancel`, with which `ItemDelete` ends. -/
def State.cancel (s : State) (item : ItemId) : State :=
  match s.terminalItem item with
  | some t => { s with cancelled := Function.update s.cancelled t true, deleting := none }
  | none => { s with faults := .noTerminal item :: s.faults, deleting := none }

def State.setTransfersLimit (s : State) (value : Int) : State :=
  if s.transfersLimit = value then s
  else
    { s with
      temporaryTerminals :=
        if 0 ≤ value ∧ value < s.itemsInProcess then (s.itemsInProcess - value).toNat else 0,
      transfersLimit := value }

/-! ## The queue's thread -/

/-- The item is taken into processing by a connection. -/
def State.take (s : State) (item : ItemId) (t : TerminalId) : State :=
  { s.setActivity t (.working ⟨item, .taken, false⟩) with
    forcedItems := s.forcedItems.erase item,
    itemsInProcess := s.itemsInProcess + 1,
    giving := some t,
    started := ⟨item, s.requested.contains item, s.itemsInProcess, s.transfersLimit⟩ :: s.started }

/-- A new connection may be made. -/
def State.roomForTerminal (s : State) : Bool :=
  s.freeTerminals == 0 && (decide (s.transfersLimit ≤ 0) ||
    decide ((s.terminals.length : Int) < s.transfersLimit + s.temporaryTerminals))

/-- The queue with one more connection. -/
def State.newTerminal (s : State) : State :=
  { s with
    terminals := s.terminals ++ [s.overallTerminals + 1],
    overallTerminals := s.overallTerminals + 1 }

/-- One turn of the loop in `ProcessEvent`, as far as the lock is held. -/
def State.processEvent (s : State) : State :=
  match s.items[s.itemsInProcess]? with
  | none => s
  | some item =>
    if s.enabled ∨ item ∈ s.forcedItems then
      if s.roomForTerminal then
        s.newTerminal.take item s.newTerminal.overallTerminals
      else
        match s.freeTerminals, s.terminals with
        | free + 1, t :: rest =>
          { s with terminals := move (t :: rest) 0 rest.length, freeTerminals := free }.take item t
        | _, _ => s
    else s

/-- `Idle` takes the last free connection. -/
def State.idle (s : State) : State :=
  match s.freeTerminals with
  | 0 => s
  | free + 1 =>
    match s.terminals[free]? with
    | none => s
    | some t =>
      { s.setActivity t .resting with
        terminals := move s.terminals free (s.terminals.length - 1), freeTerminals := free }

/-! ## The thread of a connection -/

def State.setStage (s : State) (t : TerminalId) (work : Work) (stage : Stage) : State :=
  s.setActivity t (.working { work with stage })

/-- The beginning of `TTerminalItem::ProcessEvent`. A connection that is active
need not be opened. -/
def State.attach (s : State) (t : TerminalId) (work : Work) (active : Bool) : State :=
  { s.setActivity t (.working { work with stage := .attached, opened := active }) with
    cancelled := Function.update s.cancelled t false,
    terminalItem := Function.update s.terminalItem work.item (some t) }

def State.retryItem (s : State) (item : ItemId) : State :=
  { s with items := s.items.erase item ++ [item], itemsInProcess := s.itemsInProcess - 1 }

/-- An item is kept for a while, or destroyed; no connection has it any more. -/
def State.deleteItem (s : State) (item : ItemId) (keep : Bool) : State :=
  { s with
    items := s.items.erase item,
    itemsInProcess := s.itemsInProcess - 1,
    forcedItems := s.forcedItems.erase item,
    doneItems := if keep then s.doneItems ++ [item] else s.doneItems }

/-- The item is not done, since the connection could not be opened. -/
def State.retries (s : State) (t : TerminalId) (work : Work) : Bool :=
  !work.opened && !s.cancelled t

/-- The item goes back to the queue. -/
def State.giveBack (s : State) (t : TerminalId) (work : Work) (complete : Bool) : State :=
  let s' := s.setActivity t .resting
  if s.retries t work then s'.retryItem work.item
  else s'.deleteItem work.item (complete && !s.cancelled t)

def State.terminalFree (s : State) (t : TerminalId) : State :=
  let index := s.terminals.idxOf t
  if s.transfersLimit < 0 ∨ (index : Int) < s.transfersLimit then
    { s.setActivity t .free with
      terminals := move s.terminals index 0, freeTerminals := s.freeTerminals + 1 }
  else s.setActivity t .closing

def State.terminalFinished (s : State) (t : TerminalId) : State :=
  let index := s.terminals.idxOf t
  { s with
    freeTerminals := if index < s.freeTerminals then s.freeTerminals - 1 else s.freeTerminals,
    temporaryTerminals :=
      if 0 ≤ s.transfersLimit ∧ s.transfersLimit ≤ index ∧ 0 < s.temporaryTerminals then
        s.temporaryTerminals - 1
      else s.temporaryTerminals,
    terminals := s.terminals.erase t }

/-! ## Actions -/

inductive Action
  | addItem
  | itemMove (item beforeItem : ItemId)
  | itemExecuteNow (item : ItemId)
  | itemDelete (item : ItemId)
  | cancel
  | setTransfersLimit (value : Int)
  | setEnabled (value : Bool)
  | processEvent
  /-- `TTerminalItem::Process` -/
  | process
  /-- a done item is not kept any longer -/
  | expire (item : ItemId)
  | idle
  | attach (t : TerminalId) (active : Bool)
  /-- the connection was opened -/
  | opened (t : TerminalId)
  | setStatus (t : TerminalId) (status : Status)
  /-- the user cancels when an error is shown -/
  | errorCancelled (t : TerminalId)
  /-- the transfer is over, with or without an error -/
  | ended (t : TerminalId)
  | detach (t : TerminalId)
  | giveBack (t : TerminalId) (complete : Bool)
  /-- the connection is free again if it is still active -/
  | release (t : TerminalId) (active : Bool)
  | finished (t : TerminalId)

/-- The item of a connection that is at the given stage. -/
def State.workAt (s : State) (t : TerminalId) (stage : Stage) : Option Work :=
  match s.activity t with
  | .working work => if work.stage = stage then some work else none
  | _ => none

/-- An action that needs the lock. -/
def State.locked (s : State) (next : State) : Option State :=
  if s.deleting = none then some next else none

def step (s : State) : Action → Option State
  | .addItem => s.locked s.addItem
  | .itemMove item beforeItem => s.locked (s.itemMove item beforeItem)
  | .itemExecuteNow item => s.locked (s.itemExecuteNow item)
  | .itemDelete item => s.locked (s.itemDelete item)
  | .cancel => s.deleting.map s.cancel
  | .setTransfersLimit value => s.locked (s.setTransfersLimit value)
  | .setEnabled value => s.locked { s with enabled := value }
  | .processEvent => if s.giving = none then s.locked s.processEvent else none
  | .process =>
    s.giving.bind fun t => (s.workAt t .taken).map fun work =>
      { s.setStage t work .given with giving := none }
  | .expire item => s.locked { s with doneItems := s.doneItems.erase item }
  | .idle => s.locked s.idle
  | .attach t active => (s.workAt t .given).map fun work => s.attach t work active
  | .opened t => (s.workAt t .attached).map fun work =>
      s.setActivity t (.working { work with opened := true })
  | .setStatus t status =>
    if status = .pending ∨ status = .done then none
    else (s.workAt t .attached).map fun work => s.setStatus work.item status
  | .errorCancelled t => (s.workAt t .attached).map fun _ =>
      { s with cancelled := Function.update s.cancelled t true }
  | .ended t => (s.workAt t .attached).map fun work =>
      (s.setStage t work .ended).setStatus work.item .done
  | .detach t => (s.workAt t .ended).map fun work =>
      { s.setStage t work .detached with
        terminalItem := Function.update s.terminalItem work.item none }
  | .giveBack t complete =>
    (s.workAt t .detached).bind fun work => s.locked (s.giveBack t work complete)
  | .release t active =>
    if s.activity t = .resting then
      if active then s.locked (s.terminalFree t) else some (s.setActivity t .closing)
    else none
  | .finished t =>
    if s.activity t = .closing ∧ t ∈ s.terminals then s.locked (s.terminalFinished t) else none

end NetBox.Queue
