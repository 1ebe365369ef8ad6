import NetBox.Lib.Edit

/-! # Converting the line ends of a buffer

`TFileBuffer::Convert` edits the buffer in place while it walks it. One bit,
the token, is carried from one block of a file to the next.

Buffers are taken to be shorter than `2^31`, so that the `int32_t` position
does not overflow. A line end is a C string of at most two characters, of which
the code reads the first two.
-/
namespace NetBox.Base.FileBuffer
open Lib.Edit

def cr : UInt8 := 13
def lf : UInt8 := 10
def ctrlZ : UInt8 := 0x1A

/-- `CONST_BOM` -/
def bom : List UInt8 := [0xEF, 0xBB, 0xBF]

/-- A line end. The second character of a string of one is zero. -/
structure Eol where
  first : UInt8
  second : UInt8
deriving DecidableEq, Repr

/-- The characters of a line end. -/
def Eol.bytes (e : Eol) : List UInt8 :=
  if e.second = 0 then [e.first] else [e.first, e.second]

inductive EolType
  | lf
  | crlf
  | cr
deriving DecidableEq

def eolToStr : EolType → Eol
  | .lf => ⟨lf, 0⟩
  | .crlf => ⟨cr, lf⟩
  | .cr => ⟨cr, 0⟩

/-- The flags of `Params`. -/
structure ConvertParams where
  removeCtrlZ : Bool := false
  removeBom : Bool := false
deriving DecidableEq

/-- The buffer with the position of the loop. -/
structure Walk where
  data : List UInt8
  index : Nat
  token : Bool
deriving DecidableEq

def cutBom (data : List UInt8) : List UInt8 :=
  if data.length ≥ 3 ∧ data.take 3 = bom then deleteAt data 0 3 else data

def cutCtrlZ (data : List UInt8) : List UInt8 :=
  if data.length > 0 ∧ data[data.length - 1]? = some ctrlZ then deleteAt data (data.length - 1) 1
  else data

/-- What the flags take away from a block. -/
def ConvertParams.strip (params : ConvertParams) (block : List UInt8) : List UInt8 :=
  let block := if params.removeBom then cutBom block else block
  if params.removeCtrlZ then cutCtrlZ block else block

/-- The passage of the loop for a source line end of one character. -/
def oneCharStep (source dest : Eol) (prevToken : Bool) (w : Walk) : Walk :=
  -- a line end in the destination format is passed
  if w.index + 1 < w.data.length ∧ w.data[w.index]? = some dest.first ∧
      w.data[w.index + 1]? = some dest.second then
    { w with index := w.index + 2 }
  -- the rest of a line end that was completed in the block before. The index
  -- is decremented, and incremented by the loop.
  else if w.index = 0 ∧ prevToken = true ∧ w.data[w.index]? = some dest.second then
    { w with data := deleteAt w.data w.index 1 }
  -- half a line end at the end of the block is completed
  else if w.data[w.index]? = some dest.first ∧ w.index + 1 = w.data.length ∧ dest.second ≠ 0 then
    { data := insertAt w.data (w.index + 1) [dest.second], index := w.index + 2, token := true }
  else if w.data[w.index]? = some source.first then
    let data := w.data.set w.index dest.first
    if dest.second ≠ 0 then
      { w with data := insertAt data (w.index + 1) [dest.second], index := w.index + 2 }
    else { w with data, index := w.index + 1 }
  else { w with index := w.index + 1 }

/-- Every passage brings the position closer to the end. -/
def oneCharLoop (source dest : Eol) (prevToken : Bool) : Nat → Walk → Walk
  | 0, w => w
  | fuel + 1, w =>
    if w.index < w.data.length then
      oneCharLoop source dest prevToken fuel (oneCharStep source dest prevToken w)
    else w

def twoCharStep (source dest : Eol) (w : Walk) : Walk :=
  if w.data[w.index]? = some source.first ∧ w.data[w.index + 1]? = some source.second then
    let data := w.data.set w.index dest.first
    if dest.second ≠ 0 then
      { w with data := data.set (w.index + 1) dest.second, index := w.index + 2 }
    else { w with data := deleteAt data (w.index + 1) 1, index := w.index + 1 }
  else { w with index := w.index + 1 }

def twoCharLoop (source dest : Eol) : Nat → Walk → Walk
  | 0, w => w
  | fuel + 1, w =>
    if w.index + 1 < w.data.length then twoCharLoop source dest fuel (twoCharStep source dest w)
    else w

/-- The first half of a line end at the end of the block is deleted. -/
def dropHalf (source : Eol) (w : Walk) : List UInt8 :=
  if w.index < w.data.length ∧ w.data[w.index]? = some source.first then deleteAt w.data w.index 1
  else w.data

/-- `Convert`: the buffer and the token after it. -/
def convert (source dest : Eol) (params : ConvertParams) (token : Bool) (data : List UInt8) :
    List UInt8 × Bool :=
  let data := params.strip data
  if source = dest then (data, token)
  else if source.second = 0 then
    let w := oneCharLoop source dest token data.length ⟨data, 0, false⟩
    (w.data, w.token)
  else (dropHalf source (twoCharLoop source dest data.length ⟨data, 0, token⟩), token)

/-- The blocks of a file are converted one after another with one token. -/
def convertBlocks (source dest : Eol) (params : ConvertParams) :
    Bool → List (List UInt8) → List UInt8
  | _, [] => []
  | token, block :: blocks =>
    let (data, token) := convert source dest params token block
    data ++ convertBlocks source dest params token blocks

end NetBox.Base.FileBuffer
