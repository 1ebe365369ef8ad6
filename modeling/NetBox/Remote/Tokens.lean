import NetBox.Base.Text

/-! # Owners and groups

A `TRemoteToken` is known by its name, by its number, or by both. `TRemoteTokenList` keeps
tokens in the order they came in, with one map from names and one from numbers to
positions. A token whose name or number is in a map already does not change it.
-/
namespace NetBox.Remote
open Base.Text Lib.KeyMap

structure TRemoteToken where
  name : UnicodeString := []
  id : Int32 := 0
  idValid : Bool := false
deriving DecidableEq

namespace TRemoteToken

def nameValid (t : TRemoteToken) : Bool := !t.name.isEmpty

def isSet (t : TRemoteToken) : Bool := !t.name.isEmpty || t.idValid

def setID (t : TRemoteToken) (value : Int32) : TRemoteToken := { t with id := value, idValid := true }

def setName (t : TRemoteToken) (value : UnicodeString) : TRemoteToken := { t with name := value }

/-- `Clear` leaves the name. -/
def clear (t : TRemoteToken) : TRemoteToken := { t with id := 0, idValid := false }

/-- The name under which the token is found, and the number. -/
def nameKey (t : TRemoteToken) : Option UnicodeString := if t.nameValid then some t.name else none

def idKey (t : TRemoteToken) : Option Int32 := if t.idValid then some t.id else none

end TRemoteToken

/-- The list with its maps. Every position in a map is the one of a token that has the key. -/
structure TRemoteTokenList (c : Collation) where
  tokens : List TRemoteToken := []
  nameMap : List (UnicodeString × Nat) := []
  idMap : List (Int32 × Nat) := []
  names : Indexes c.keys TRemoteToken.nameKey tokens nameMap := by exact .nil
  ids : Indexes (.ofDecEq _) TRemoteToken.idKey tokens idMap := by exact .nil

inductive TokenOp
  | add (token : TRemoteToken)
  | addUnique (token : TRemoteToken)

namespace TRemoteTokenList

variable {c : Collation} (list : TRemoteTokenList c)

def add (token : TRemoteToken) : TRemoteTokenList c where
  tokens := list.tokens ++ [token]
  idMap := token.idKey.elim list.idMap fun id =>
    insert (.ofDecEq _) list.idMap id ((list.tokens ++ [token]).length - 1)
  nameMap := token.nameKey.elim list.nameMap fun name =>
    insert c.keys list.nameMap name ((list.tokens ++ [token]).length - 1)
  names := list.names.push token
  ids := list.ids.push token

/-- A token that has a number is looked for by the number alone. -/
def addUnique (token : TRemoteToken) : TRemoteTokenList c :=
  if token.idValid then
    if (find? (.ofDecEq _) list.idMap token.id).isSome then list else list.add token
  else if token.nameValid then
    if (find? c.keys list.nameMap token.name).isSome then list else list.add token
  else list

/-- `Exists` -/
def existsName (name : UnicodeString) : Bool := (find? c.keys list.nameMap name).isSome

/-- `Find` by number, which the map has as `int32_t`. -/
def findID (id : UInt32) : Option TRemoteToken :=
  (find? (.ofDecEq _) list.idMap id.toInt32).bind (list.tokens[·]?)

def findName (name : UnicodeString) : Option TRemoteToken :=
  (find? c.keys list.nameMap name).bind (list.tokens[·]?)

def step : TokenOp → TRemoteTokenList c
  | .add token => list.add token
  | .addUnique token => list.addUnique token

/-- A lookup gives a token of the list that meets the condition, or there is none. -/
def Right (result : Option TRemoteToken) (carries : TRemoteToken → Prop) : Prop :=
  (∀ t, result = some t → t ∈ list.tokens ∧ carries t) ∧
    (result = none → ∀ t ∈ list.tokens, ¬ carries t)

variable {list}

theorem right_of_indexes {K : Type} {k : Keys K} {key : TRemoteToken → Option K}
    {m : List (K × Nat)} (h : Indexes k key list.tokens m) (x : K) :
    list.Right ((find? k m x).bind (list.tokens[·]?))
      (fun t => ∃ y, key t = some y ∧ k.same y x = true) := by
  cases hfind : find? k m x with
  | none =>
    refine ⟨nofun, fun _ t ht => ?_⟩
    intro ⟨y, hy, hsame⟩
    rw [h.missing hfind t ht y hy] at hsame
    cases hsame
  | some i =>
    obtain ⟨a, y, ha, hy⟩ := h.found hfind
    rw [Option.bind_some, ha]
    refine ⟨fun t ht => ?_, nofun⟩
    cases ht
    exact ⟨List.mem_of_getElem? ha, y, hy⟩

end TRemoteTokenList

/-- The list after a sequence of calls. -/
def tokenList (c : Collation) (ops : List TokenOp) : TRemoteTokenList c :=
  ops.foldl TRemoteTokenList.step {}

/-- In every token list a lookup gives a token that carries the name or the number, and
fails only if there is none. Names are compared as the map compares its keys. -/
theorem tokenList_lookup (c : Collation) (ops : List TokenOp) :
    (∀ name,
      (tokenList c ops).Right ((tokenList c ops).findName name)
        (fun t => t.nameValid = true ∧ c.keys.same t.name name = true) ∧
      ((tokenList c ops).existsName name = true ↔
        ((tokenList c ops).findName name).isSome = true)) ∧
    ∀ id : UInt32, (tokenList c ops).Right ((tokenList c ops).findID id)
      (fun t => t.idValid = true ∧ t.id = id.toInt32) := by
  generalize tokenList c ops = list
  have hname : ∀ name t, (∃ y, TRemoteToken.nameKey t = some y ∧ c.keys.same y name = true) ↔
      t.nameValid = true ∧ c.keys.same t.name name = true := by
    intro name t
    simp [TRemoteToken.nameKey]
  have hid : ∀ id t, (∃ y, TRemoteToken.idKey t = some y ∧ (Keys.ofDecEq Int32).same y id = true) ↔
      t.idValid = true ∧ t.id = id := by
    intro id t
    simp [TRemoteToken.idKey, Keys.ofDecEq, Keys.ofView]
  refine ⟨fun name => ⟨?_, ?_⟩, fun id => ?_⟩
  · have hright := TRemoteTokenList.right_of_indexes list.names name
    simp only [hname] at hright
    exact hright
  · rw [TRemoteTokenList.existsName, TRemoteTokenList.findName]
    cases hfind : find? c.keys list.nameMap name with
    | none => rfl
    | some i =>
      obtain ⟨a, y, ha, -⟩ := list.names.found hfind
      rw [Option.bind_some, ha]
      simp
  · have hright := TRemoteTokenList.right_of_indexes list.ids id.toInt32
    simp only [hid] at hright
    exact hright

end NetBox.Remote
