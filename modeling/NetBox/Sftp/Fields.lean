import Mathlib.Algebra.Group.Int.Defs
import NetBox.Sftp.Packet

/-! # The fields of a packet

Bytes, numbers and strings are appended to a packet, whose buffer grows as needed, and
read back from it. Lengths, capacities and the sizes that are allocated have 32 bits in the
source. A packet that would get longer than that is written to behind the end of its buffer.
-/
namespace NetBox.Sftp
open Lib.Bytes List

inductive Field
  | byte (value : UInt8)
  | cardinal (value : UInt32)
  | int64 (value : Int64)
  | data (value : List UInt8)

inductive FieldKind
  | byte
  | cardinal
  | int64
  | data

namespace Packet

/-- The buffer as `Add` makes it before it copies the data. Lengths have 32 bits. -/
def grow (size : Nat) (p : Packet) : Packet :=
  let needed := (p.data.length + size) % 2 ^ 32
  if needed > p.capacity then p.setCapacity ((needed + sftpPacketAllocDelta) % 2 ^ 32) else p

theorem room_le (capacity : Nat) : room capacity ≤ capacity := by
  unfold room allocated
  split <;> omega

theorem room_eq {capacity : Nat} (h : capacity + sendPrefixLen < 2 ^ 32) :
    room capacity = capacity := by
  unfold room allocated
  split
  · rw [Nat.mod_eq_of_lt h, Nat.add_sub_cancel]
  · omega

/-- Here the sum that is allocated begins again at zero. -/
theorem room_of_ge {capacity : Nat} (h : capacity < 2 ^ 32)
    (hge : 2 ^ 32 ≤ capacity + sendPrefixLen) : room capacity = 0 := by
  unfold room allocated
  have hprefix : sendPrefixLen = 4 := rfl
  split <;> omega

/-- The copying. `none` is a write behind the end of the buffer. -/
def put (bytes : List UInt8) (p : Packet) : Option Packet :=
  if h : p.data.length + bytes.length ≤ room p.capacity then
    some { p with
      data := p.data ++ bytes
      fits := by simpa using Nat.le_trans h (room_le p.capacity) }
  else none

/-- `Add` -/
def append (bytes : List UInt8) (p : Packet) : Option Packet := (p.grow bytes.length).put bytes

def addByte (value : UInt8) (p : Packet) : Option Packet := p.append [value]

def addCardinal (value : UInt32) (p : Packet) : Option Packet := p.append (put32 value)

/-- `Value >> 32` of a negative value keeps its sign. -/
def addInt64 (value : Int64) (p : Packet) : Option Packet :=
  (p.addCardinal (UInt32.ofInt (value.toInt / 2 ^ 32))).bind
    (addCardinal (UInt32.ofInt (value.toInt % 2 ^ 32)))

/-- `AddData` and `AddString`. -/
def addData (value : List UInt8) (p : Packet) : Option Packet :=
  (p.addCardinal value.length.toUInt32).bind (append value)

def addField (p : Packet) : Field → Option Packet
  | .byte value => p.addByte value
  | .cardinal value => p.addCardinal value
  | .int64 value => p.addInt64 value
  | .data value => p.addData value

def getInt64 (p : Packet) : Except Failure (Int64 × Packet) := do
  let (hi, p) ← p.getCardinal
  let (lo, p) ← p.getCardinal
  return (Int64.ofInt (hi.toNat * 2 ^ 32 + lo.toNat), p)

/-- The string is made as long as `ToInt32(Len)`, which is another number from 2 GiB on; this is
left out. -/
def getRawByteString (p : Packet) : Except Failure (List UInt8 × Packet) := do
  let (len, p) ← p.getCardinal
  if len.toNat > p.data.length - p.position then .error (p.short len.toNat)
  else .ok ((p.data.drop p.position).take len.toNat, { p with position := p.position + len.toNat })

def getField (p : Packet) : FieldKind → Except Failure (Field × Packet)
  | .byte => p.getByte.map fun (value, p) => (.byte value, p)
  | .cardinal => p.getCardinal.map fun (value, p) => (.cardinal value, p)
  | .int64 => p.getInt64.map fun (value, p) => (.int64 value, p)
  | .data => p.getRawByteString.map fun (value, p) => (.data value, p)

def getFields : List FieldKind → Packet → Except Failure (List Field × Packet)
  | [], p => .ok ([], p)
  | kind :: kinds, p => do
    let (field, p) ← p.getField kind
    let (fields, p) ← getFields kinds p
    return (field :: fields, p)

end Packet

namespace Field

def kind : Field → FieldKind
  | byte _ => .byte
  | cardinal _ => .cardinal
  | int64 _ => .int64
  | data _ => .data

/-- What a field appends, one call of `Add` after the other. -/
def pieces : Field → List (List UInt8)
  | byte value => [[value]]
  | cardinal value => [put32 value]
  | int64 value =>
    [put32 (UInt32.ofInt (value.toInt / 2 ^ 32)), put32 (UInt32.ofInt (value.toInt % 2 ^ 32))]
  | data value => [put32 value.length.toUInt32, value]

/-- The length of a byte string is an `int32_t`. -/
def Valid : Field → Prop
  | data value => value.length < 2 ^ 31
  | _ => True

end Field

/-- The fields are written and read back in order, nothing is left, and there is nothing
more to read. The reader begins where the first field was put. -/
def RoundTrip (start : Packet) (fields : List Field) : Prop :=
  ∃ p q, fields.foldlM Packet.addField start = some p ∧
    Packet.getFields (fields.map Field.kind) { p with position := start.data.length } =
      .ok (fields, q) ∧
    q.position = q.data.length ∧ ∀ kind, ∃ size, q.getField kind = .error (q.short size)

/-- More bytes have room in the buffer, or in the one that it is replaced by. -/
def RoomFor (length capacity size : Nat) : Prop :=
  length + size ≤ capacity ∨
    length + size + sftpPacketAllocDelta + Packet.sendPrefixLen < 2 ^ 32

/-- So has every piece of a sequence. -/
def HasRoom : Nat → Nat → List Nat → Prop
  | _, _, [] => True
  | length, capacity, size :: sizes =>
    RoomFor length capacity size ∧ HasRoom (length + size)
      (if length + size ≤ capacity then capacity else length + size + sftpPacketAllocDelta) sizes

/-! ## Writing -/

namespace Packet
variable {p : Packet} {bytes : List UInt8}

theorem grow_of_fits (hcap : p.capacity + sendPrefixLen < 2 ^ 32) {size : Nat}
    (h : p.data.length + size ≤ p.capacity) : p.grow size = p := by
  rw [grow, Nat.mod_eq_of_lt (by omega)]
  exact if_neg (by omega)

theorem grow_of_room {size : Nat} (h : ¬ p.data.length + size ≤ p.capacity)
    (hroom : p.data.length + size + sftpPacketAllocDelta + sendPrefixLen < 2 ^ 32) :
    p.grow size = p.setCapacity (p.data.length + size + sftpPacketAllocDelta) := by
  rw [grow, Nat.mod_eq_of_lt (by omega), Nat.mod_eq_of_lt (by omega)]
  exact if_pos (by omega)

/-- Without room the new buffer, too, is shorter than what is put into it. -/
theorem grow_of_no_room {size : Nat} (hsize : size < 2 ^ 31)
    (h : ¬ RoomFor p.data.length p.capacity size) :
    ¬ (p.grow size).data.length + size ≤ room (p.grow size).capacity := by
  have hfits := p.fits
  have hdelta : sftpPacketAllocDelta = 256 := rfl
  have hprefix : sendPrefixLen = 4 := rfl
  have hle := room_le p.capacity
  rw [RoomFor, not_or] at h
  unfold grow
  dsimp only
  split
  · have hle := room_le (((p.data.length + size) % 2 ^ 32 + sftpPacketAllocDelta) % 2 ^ 32)
    have hzero := @room_of_ge (((p.data.length + size) % 2 ^ 32 + sftpPacketAllocDelta) % 2 ^ 32)
    simp only [setCapacity, length_take]
    omega
  · omega

/-- A piece is appended just when it has room. -/
theorem append_spec (hcap : p.capacity + sendPrefixLen < 2 ^ 32) (hbytes : bytes.length < 2 ^ 31) :
    (RoomFor p.data.length p.capacity bytes.length ∧
      ∃ q, p.append bytes = some q ∧ q.data = p.data ++ bytes ∧
        q.capacity + sendPrefixLen < 2 ^ 32 ∧
        q.capacity = if p.data.length + bytes.length ≤ p.capacity then p.capacity
          else p.data.length + bytes.length + sftpPacketAllocDelta) ∨
      (¬ RoomFor p.data.length p.capacity bytes.length ∧ p.append bytes = none) := by
  by_cases hroom : RoomFor p.data.length p.capacity bytes.length
  · refine .inl ⟨hroom, ?_⟩
    by_cases hin : p.data.length + bytes.length ≤ p.capacity
    · rw [append, grow_of_fits hcap hin, put, if_pos hin]
      exact ⟨_, dif_pos ((room_eq hcap).symm ▸ hin), rfl, hcap, rfl⟩
    · have hnew := hroom.resolve_left hin
      have htake : p.data.take (p.data.length + bytes.length + sftpPacketAllocDelta) = p.data :=
        take_of_length_le (by omega)
      rw [append, grow_of_room hin hnew, put, if_neg hin]
      refine ⟨_, dif_pos ?_, ?_, hnew, rfl⟩
      · simp only [setCapacity, htake, room_eq hnew]
        omega
      · simp only [setCapacity, htake]
  · exact .inr ⟨hroom, dif_neg (grow_of_no_room hbytes hroom)⟩

theorem addField_eq (p : Packet) (field : Field) :
    p.addField field = field.pieces.foldlM (fun p bytes => p.append bytes) p := by
  cases field <;>
    simp [addField, addByte, addCardinal, addInt64, addData, Field.pieces, Option.bind_eq_bind]
  all_goals rfl

theorem foldlM_addField (fields : List Field) (p : Packet) :
    fields.foldlM addField p =
      (fields.flatMap Field.pieces).foldlM (fun p bytes => p.append bytes) p := by
  induction fields generalizing p with
  | nil => rfl
  | cons field fields ih =>
    rw [foldlM_cons, flatMap_cons, List.foldlM_append, addField_eq]
    exact bind_congr ih

/-- All pieces are appended just when they have room. -/
theorem foldlM_append (pieces : List (List UInt8)) (hcap : p.capacity + sendPrefixLen < 2 ^ 32)
    (hpieces : ∀ bytes ∈ pieces, bytes.length < 2 ^ 31) :
    (HasRoom p.data.length p.capacity (pieces.map List.length) ∧
      ∃ q, pieces.foldlM (fun p bytes => p.append bytes) p = some q ∧
        q.data = p.data ++ pieces.flatten) ∨
      (¬ HasRoom p.data.length p.capacity (pieces.map List.length) ∧
        pieces.foldlM (fun p bytes => p.append bytes) p = none) := by
  induction pieces generalizing p with
  | nil => exact .inl ⟨trivial, p, rfl, by simp⟩
  | cons bytes pieces ih =>
    rw [forall_mem_cons] at hpieces
    rw [foldlM_cons, map_cons, HasRoom]
    rcases append_spec hcap hpieces.1 with ⟨hroom, q, hq, hdata, hcapq, hgrown⟩ | ⟨hroom, hnone⟩
    · have hlength : q.data.length = p.data.length + bytes.length := by rw [hdata, length_append]
      rw [hq, ← hgrown, ← hlength]
      rcases ih hcapq hpieces.2 with ⟨hrest, r, hr, hrdata⟩ | ⟨hrest, hnone⟩
      · exact .inl ⟨⟨hroom, hrest⟩, r, hr, by rw [hrdata, hdata, flatten_cons, append_assoc]⟩
      · exact .inr ⟨fun h => hrest h.2, hnone⟩
    · rw [hnone]
      exact .inr ⟨fun h => hroom h.1, rfl⟩

/-! ## Reading -/

variable {rest : List UInt8}

theorem getByte_of_drop {value : UInt8} (h : p.data.drop p.position = value :: rest) :
    p.getByte = .ok (value, { p with position := p.position + 1 }) := by
  rw [getByte, h]

theorem getCardinal_of_drop {value : UInt32} (h : p.data.drop p.position = put32 value ++ rest) :
    p.getCardinal = .ok (value, { p with position := p.position + 4 }) := by
  simp only [getCardinal, h, put32, cons_append, get32_put32]

theorem drop_behind (h : p.data.drop p.position = bytes ++ rest) :
    p.data.drop (p.position + bytes.length) = rest := by
  rw [← drop_drop, h, drop_left]

theorem toNat_ofInt (x : Int) : ((UInt32.ofInt x).toNat : Int) = x % 2 ^ 32 := by
  simp [UInt32.ofInt]
  omega

/-- The halves of a number make it up again, also when it is negative. -/
theorem int64_halves (value : Int64) :
    Int64.ofInt ((UInt32.ofInt (value.toInt / 2 ^ 32)).toNat * 2 ^ 32 +
      (UInt32.ofInt (value.toInt % 2 ^ 32)).toNat) = value := by
  have hlow := value.le_toInt
  have hhigh := value.toInt_lt
  have hsum : value.toInt / 2 ^ 32 % 2 ^ 32 * 2 ^ 32 + value.toInt % 2 ^ 32 % 2 ^ 32 =
      value.toInt % (2 ^ 64 : Nat) := by omega
  rw [toNat_ofInt, toNat_ofInt, hsum]
  apply Int64.toInt_inj.mp
  rw [Int64.toInt_ofInt]
  exact (Int.emod_bmod _ _).trans (Int.bmod_eq_of_le (by omega) (by omega))

/-- A field that stands at the position is read, and the position is behind it then. -/
theorem getField_of_drop {field : Field} (hvalid : field.Valid)
    (h : p.data.drop p.position = field.pieces.flatten ++ rest) :
    p.getField field.kind =
      .ok (field, { p with position := p.position + field.pieces.flatten.length }) := by
  cases field with
  | byte value =>
    rw [Field.kind, getField, getByte_of_drop (by simpa [Field.pieces] using h)]
    rfl
  | cardinal value =>
    rw [Field.kind, getField, getCardinal_of_drop (by simpa [Field.pieces] using h)]
    rfl
  | int64 value =>
    simp only [Field.pieces, flatten_cons, flatten_nil, append_nil,
      append_assoc] at h
    have hlo := drop_behind h
    rw [Field.kind, getField, getInt64, getCardinal_of_drop h]
    dsimp only [bind, Except.bind]
    rw [getCardinal_of_drop (p := { p with position := p.position + 4 }) hlo]
    dsimp only [pure, Except.pure, Except.map]
    rw [int64_halves]
    rfl
  | data value =>
    simp only [Field.pieces, flatten_cons, flatten_nil, append_nil,
      append_assoc] at h
    have hlen : value.length.toUInt32.toNat = value.length :=
      UInt32.toNat_ofNat_of_lt' (Nat.lt_trans hvalid (by decide))
    have hdata : p.data.drop (p.position + 4) = value ++ rest := drop_behind h
    have hlength := congrArg List.length hdata
    rw [length_drop, length_append] at hlength
    rw [Field.kind, getField, getRawByteString, getCardinal_of_drop h]
    dsimp only [bind, Except.bind]
    rw [hlen, if_neg (by omega), hdata, take_left]
    simp only [Except.map, Field.pieces, flatten_cons, flatten_nil, append_nil,
      length_append, Nat.add_assoc]
    rfl

theorem getFields_of_drop {fields : List Field} (hvalid : ∀ field ∈ fields, field.Valid)
    (h : p.data.drop p.position = (fields.flatMap Field.pieces).flatten ++ rest) :
    getFields (fields.map Field.kind) p = .ok (fields, { p with
      position := p.position + (fields.flatMap Field.pieces).flatten.length }) := by
  induction fields generalizing p with
  | nil => rfl
  | cons field fields ih =>
    rw [forall_mem_cons] at hvalid
    rw [flatMap_cons, flatten_append, append_assoc] at h
    rw [map_cons, getFields, getField_of_drop hvalid.1 h]
    dsimp only [bind, Except.bind]
    rw [ih hvalid.2 (drop_behind h)]
    simp only [flatMap_cons, flatten_append, length_append, Nat.add_assoc]
    rfl

/-- At the end every read fails. -/
theorem getField_of_end (h : p.data.drop p.position = []) (kind : FieldKind) :
    ∃ size, p.getField kind = .error (p.short size) := by
  have hbyte : p.getByte = .error (p.short 1) := by rw [getByte, h]
  have hcardinal : p.getCardinal = .error (p.short 4) := by rw [getCardinal, h]
  cases kind with
  | byte => exact ⟨1, by rw [getField, hbyte]; rfl⟩
  | cardinal => exact ⟨4, by rw [getField, hcardinal]; rfl⟩
  | int64 => exact ⟨4, by rw [getField, getInt64, hcardinal]; rfl⟩
  | data => exact ⟨4, by rw [getField, getRawByteString, hcardinal]; rfl⟩

end Packet

theorem length_of_mem_pieces {field : Field} (hvalid : field.Valid) {bytes : List UInt8}
    (h : bytes ∈ field.pieces) : bytes.length < 2 ^ 31 := by
  have hput : ∀ value, (put32 value).length < 2 ^ 31 := fun _ => show 4 < 2 ^ 31 by decide
  cases field with
  | byte value => rw [mem_singleton.mp h, length_singleton]; decide
  | cardinal value => rw [mem_singleton.mp h]; exact hput value
  | int64 value =>
    rcases mem_pair.mp h with rfl | rfl
    · exact hput _
    · exact hput _
  | data value =>
    rcases mem_pair.mp h with rfl | rfl
    · exact hput _
    · exact hvalid

/-- Fields are read back as they were written just when they have room: no write makes
the packet outgrow the 32 bits of the size of its buffer. -/
theorem fields_roundTrip_iff (start : Packet)
    (hstart : start.capacity + Packet.sendPrefixLen < 2 ^ 32) (fields : List Field)
    (hvalid : ∀ field ∈ fields, field.Valid) :
    RoundTrip start fields ↔ HasRoom start.data.length start.capacity
      ((fields.flatMap Field.pieces).map List.length) := by
  have hpieces : ∀ bytes ∈ fields.flatMap Field.pieces, bytes.length < 2 ^ 31 := by
    intro bytes h
    obtain ⟨field, hfield, hmem⟩ := List.mem_flatMap.mp h
    exact length_of_mem_pieces (hvalid field hfield) hmem
  rw [RoundTrip, Packet.foldlM_addField]
  rcases Packet.foldlM_append _ hstart hpieces with ⟨hroom, p, hp, hdata⟩ | ⟨hroom, hnone⟩
  · have hdrop : p.data.drop start.data.length = (fields.flatMap Field.pieces).flatten ++ [] := by
      rw [hdata, List.drop_left, List.append_nil]
    have hend : start.data.length + (fields.flatMap Field.pieces).flatten.length = p.data.length := by
      rw [hdata, List.length_append]
    refine iff_of_true ⟨p, _, hp, Packet.getFields_of_drop hvalid hdrop, hend, fun kind => ?_⟩ hroom
    refine Packet.getField_of_end (List.drop_eq_nil_of_le ?_) kind
    exact Nat.le_of_eq hend.symm
  · refine iff_of_false ?_ hroom
    rintro ⟨p, _, hp, -⟩
    rw [hnone] at hp
    cases hp

theorem fields_roundTrip_negative :
    RoundTrip (.init 0) [.int64 (-5), .data [1, 2]] :=
  (fields_roundTrip_iff (.init 0) (by decide) [.int64 (-5), .data [1, 2]]
    (by simp [Field.Valid])).mpr (by simp [HasRoom, RoomFor, Field.pieces, put32]; decide)

/-- Two strings of the greatest length are too much. -/
theorem fields_outgrow : ∃ value : List UInt8, value.length = 2 ^ 31 - 1 ∧
    ¬ RoundTrip (.init 0) [.data value, .data value] := by
  obtain ⟨value, hvalue⟩ : ∃ value : List UInt8, value.length = 2 ^ 31 - 1 :=
    ⟨.replicate _ 0, List.length_replicate⟩
  refine ⟨value, hvalue, ?_⟩
  rintro ⟨p, _, hp, -⟩
  have hput : (put32 value.length.toUInt32).length = 4 := rfl
  rw [Packet.foldlM_addField, show List.flatMap Field.pieces [.data value, .data value] =
    [put32 value.length.toUInt32, value, put32 value.length.toUInt32, value] from rfl] at hp
  generalize put32 value.length.toUInt32 = number at hp hput
  have hpieces : ∀ bytes ∈ [number, value, number, value], bytes.length < 2 ^ 31 := by
    simp [hput, hvalue]
  rcases Packet.foldlM_append _ (show (Packet.init 0).capacity + _ < 2 ^ 32 by decide)
      hpieces with
    ⟨hroom, -⟩ | ⟨-, hnone⟩
  · simp [HasRoom, RoomFor, hput, hvalue, sftpPacketAllocDelta, Packet.sendPrefixLen,
      Packet.init] at hroom
  · rw [hnone] at hp
    cases hp

/-! ## Probing for a string -/

namespace Packet

/-- `GetRemainingLength`, a difference of 32 bits. -/
def remainingLength (p : Packet) : UInt32 := p.data.length.toUInt32 - p.position.toUInt32

def canGetCardinal (p : Packet) : Bool := p.remainingLength ≥ 4

def peekCardinal (p : Packet) : Except Failure UInt32 := p.getCardinal.map Prod.fst

/-- `CanGetString`. The sum of the sizes has 32 bits. -/
def canGetString (p : Packet) (size : UInt32) : Except Failure (Bool × UInt32) :=
  if p.canGetCardinal then do
    let len ← p.peekCardinal
    let size := 4 + len
    return (size ≤ p.remainingLength, size)
  else .ok (false, size)

/-- The probe answers whether the string can be read, and how many bytes that consumes. -/
def ProbeExact (p : Packet) (size : UInt32) : Prop :=
  ∃ result size', p.canGetString size = .ok (result, size') ∧
    (result = true ↔ ∃ value q, p.getRawByteString = .ok (value, q)) ∧
    ∀ value q, result = true → p.getRawByteString = .ok (value, q) →
      q.position = p.position + size'.toNat

variable {p : Packet}

theorem remainingLength_toNat (hlength : p.data.length < 2 ^ 32)
    (hposition : p.position ≤ p.data.length) :
    p.remainingLength.toNat = p.data.length - p.position := by
  have hdata : p.data.length.toUInt32.toNat = p.data.length := UInt32.toNat_ofNat_of_lt' hlength
  have hread : p.position.toUInt32.toNat = p.position :=
    UInt32.toNat_ofNat_of_lt' (Nat.lt_of_le_of_lt hposition hlength)
  rw [remainingLength, UInt32.toNat_sub_of_le _ _ (UInt32.le_iff_toNat_le.mpr (by omega)), hdata,
    hread]

theorem getCardinal_cases (p : Packet) :
    (p.position + 4 ≤ p.data.length ∧
      ∃ len, p.getCardinal = .ok (len, { p with position := p.position + 4 })) ∨
    (p.data.length < p.position + 4 ∧ p.getCardinal = .error (p.short 4)) := by
  have hlength := length_drop (l := p.data) (i := p.position)
  unfold getCardinal
  split
  · next hd =>
    simp only [hd, length_cons] at hlength
    exact .inl ⟨by omega, _, rfl⟩
  · next hshort =>
    refine .inr ⟨?_, rfl⟩
    rcases hd : p.data.drop p.position with _ | ⟨a, _ | ⟨b, _ | ⟨c, _ | ⟨d, rest⟩⟩⟩⟩
    case cons.cons.cons.cons => exact absurd hd (hshort a b c d rest)
    all_goals
      simp only [hd, length_cons, length_nil] at hlength
      omega

theorem canGetCardinal_iff (hlength : p.data.length < 2 ^ 32)
    (hposition : p.position ≤ p.data.length) :
    p.canGetCardinal = true ↔ p.position + 4 ≤ p.data.length := by
  have hfour : (4 : UInt32).toNat = 4 := rfl
  rw [canGetCardinal, decide_eq_true_iff, ge_iff_le, UInt32.le_iff_toNat_le,
    remainingLength_toNat hlength hposition, hfour]
  omega

/-- What the probe compares is the sum of 32 bits. -/
theorem canGetString_of_length (hlength : p.data.length < 2 ^ 32)
    (hroom : p.position + 4 ≤ p.data.length) {len : UInt32} {q : Packet}
    (hlen : p.getCardinal = .ok (len, q)) (size : UInt32) :
    p.canGetString size =
      .ok (decide ((4 + len.toNat) % 2 ^ 32 ≤ p.data.length - p.position), 4 + len) := by
  have hposition : p.position ≤ p.data.length := by omega
  have hfits : 4 + len ≤ p.remainingLength ↔
      (4 + len.toNat) % 2 ^ 32 ≤ p.data.length - p.position := by
    rw [UInt32.le_iff_toNat_le, remainingLength_toNat hlength hposition, UInt32.toNat_add]
    rfl
  rw [canGetString, if_pos ((canGetCardinal_iff hlength hposition).mpr hroom), peekCardinal, hlen]
  simp only [← hfits]
  rfl

theorem getRawByteString_cases (hroom : p.position + 4 ≤ p.data.length) {len : UInt32}
    (hlen : p.getCardinal = .ok (len, { p with position := p.position + 4 })) :
    (p.position + (4 + len.toNat) ≤ p.data.length ∧ ∃ value, p.getRawByteString =
      .ok (value, { p with position := p.position + 4 + len.toNat })) ∨
    (p.data.length < p.position + (4 + len.toNat) ∧ ∃ e, p.getRawByteString = .error e) := by
  have hread : p.getRawByteString = if len.toNat > p.data.length - (p.position + 4) then
        .error (short { p with position := p.position + 4 } len.toNat)
      else .ok ((p.data.drop (p.position + 4)).take len.toNat,
        { p with position := p.position + 4 + len.toNat }) := by
    rw [getRawByteString, hlen]
    rfl
  rw [hread]
  split
  · exact .inr ⟨by omega, _, rfl⟩
  · exact .inl ⟨by omega, _, rfl⟩

/-- The probe for a string is exact just when the length field leaves room for its own
four bytes: the sum of a greater length is small again. -/
theorem canGetString_exact_iff (hlength : p.data.length < 2 ^ 32)
    (hposition : p.position ≤ p.data.length) (size : UInt32) :
    p.ProbeExact size ↔ ∀ len q, p.getCardinal = .ok (len, q) → len.toNat < 2 ^ 32 - 4 := by
  rcases p.getCardinal_cases with ⟨hroom, len, hlen⟩ | ⟨hroom, herror⟩
  · have hprobe := canGetString_of_length hlength hroom hlen size
    have hread := getRawByteString_cases hroom hlen
    constructor
    · intro ⟨result, size', hresult, hiff, _⟩ len' q hlen'
      rw [hlen] at hlen'
      cases hlen'
      rw [hprobe] at hresult
      cases hresult
      -- a length near the end of the range passes the probe and fails to be read
      by_contra hbig
      have hlt := len.toNat_lt
      obtain ⟨value, q, hok⟩ := hiff.mp (decide_eq_true (by omega))
      rcases hread with ⟨hle, -⟩ | ⟨-, e, herror⟩
      · omega
      · rw [herror] at hok
        cases hok
    · intro hsmall
      have hsmall := hsmall len _ hlen
      have hsum : (4 + len.toNat) % 2 ^ 32 = 4 + len.toNat := Nat.mod_eq_of_lt (by omega)
      rw [hsum] at hprobe
      refine ⟨_, _, hprobe, ?_, ?_⟩
      · rw [decide_eq_true_iff]
        rcases hread with ⟨hle, value, hok⟩ | ⟨hlt, e, herror⟩
        · exact iff_of_true (by omega) ⟨value, _, hok⟩
        · refine iff_of_false (by omega) ?_
          intro ⟨value, q, hok⟩
          rw [herror] at hok
          cases hok
      · intro value q _ hok
        rcases hread with ⟨-, value', hok'⟩ | ⟨-, e, herror⟩
        · rw [hok'] at hok
          cases hok
          rw [UInt32.toNat_add]
          exact (Nat.add_assoc _ _ _).trans (congrArg _ hsum.symm)
        · rw [herror] at hok
          cases hok
  · have hcan : ¬ p.canGetCardinal = true := by
      rw [canGetCardinal_iff hlength hposition]
      omega
    have hfails : p.getRawByteString = .error (p.short 4) := by
      rw [getRawByteString, herror]
      rfl
    refine iff_of_true ⟨false, size, if_neg hcan, ?_, ?_⟩ ?_
    · rw [hfails]
      simp
    · intro _ _ h
      cases h
    · intro len q h
      rw [herror] at h
      cases h

theorem canGetString_exact_abc :
    ProbeExact { init 0 with data := [0, 0, 0, 3, 97, 98, 99], capacity := 7, fits := by decide } 0 :=
  (canGetString_exact_iff (by decide) (by decide) 0).mpr (by
    intro len q h
    cases h
    decide)

/-- A length of all ones, and nothing behind it: the probe succeeds with a size of 3. -/
theorem canGetString_wraps :
    ¬ ProbeExact { init 0 with data := [255, 255, 255, 255], capacity := 4, fits := by decide } 0 := by
  intro ⟨result, size, hprobe, hiff, _⟩
  cases hprobe
  obtain ⟨value, q, hread⟩ := hiff.mp (by decide)
  cases hread

end Packet

end NetBox.Sftp
