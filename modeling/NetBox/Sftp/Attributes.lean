import NetBox.Sftp.Fields
import NetBox.Remote.Listing
import NetBox.Remote.RightsHistory

/-! # The attributes of a file in a packet

`AddProperties` writes the attributes that are given, behind a number whose bits say which ones
those are. `GetFile` reads them back, along with those that only a server sends. What is there
and how it is written depends on the version of the protocol.

Of `GetFile` there is what it does with a packet of type `SSH_FXP_ATTRS`, in which no name and
no listing line precede the attributes. What `UnixToDateTime` makes of a time is given by a
function.
-/
namespace NetBox.Sftp
open Remote Base.Text List

namespace SshFilexferAttr
def size : UInt32 := 0x00000001
def uidGid : UInt32 := 0x00000002
def permissions : UInt32 := 0x00000004
def acModTime : UInt32 := 0x00000008
def accessTime : UInt32 := 0x00000008
def createTime : UInt32 := 0x00000010
def modifyTime : UInt32 := 0x00000020
def acl : UInt32 := 0x00000040
def ownerGroup : UInt32 := 0x00000080
def subsecondTimes : UInt32 := 0x00000100
def bits : UInt32 := 0x00000200
def allocationSize : UInt32 := 0x00000400
def textHint : UInt32 := 0x00000800
def mimeType : UInt32 := 0x00001000
def linkCount : UInt32 := 0x00002000
def untranslatedName : UInt32 := 0x00004000
def ctime : UInt32 := 0x00008000
def extended : UInt32 := 0x80000000
end SshFilexferAttr

/-- A byte string, whose length is an `int32_t`. -/
structure RawByteString where
  bytes : List UInt8
  short : bytes.length < 2 ^ 31

/-- How texts are written to and read from a packet. -/
structure Charset where
  encode : UnicodeString → RawByteString
  decode : List UInt8 → UnicodeString

/-! ## Writing -/

/-- What `AddProperties` is given. -/
structure Properties where
  rights : Option UInt16 := none
  owner : Option TRemoteToken := none
  group : Option TRemoteToken := none
  mTime : Option Int64 := none
  aTime : Option Int64 := none
  size : Option Int64 := none
  isDirectory : Bool := false

namespace Properties
variable (props : Properties) (version : Nat)

/-- Both or neither. -/
def tokens : Option (TRemoteToken × TRemoteToken) :=
  props.owner.bind fun owner => props.group.map fun group => (owner, group)

def allocationSizeAttribute : UInt32 :=
  if 6 ≤ version then SshFilexferAttr.allocationSize else SshFilexferAttr.size

def flags : UInt32 :=
  (if props.size.isSome then allocationSizeAttribute version else 0) |||
  (if props.tokens.isSome then
    if version < 4 then SshFilexferAttr.uidGid else SshFilexferAttr.ownerGroup else 0) |||
  (if props.rights.isSome then SshFilexferAttr.permissions else 0) |||
  (if version < 4 ∧ (props.mTime.isSome ∨ props.aTime.isSome) then
    SshFilexferAttr.acModTime else 0) |||
  (if 4 ≤ version ∧ props.aTime.isSome then SshFilexferAttr.accessTime else 0) |||
  (if 4 ≤ version ∧ props.mTime.isSome then SshFilexferAttr.modifyTime else 0)

def typeFields : List Field :=
  if 4 ≤ version then [.byte (if props.isDirectory then 2 else 1)] else []

def sizeFields : List Field := (props.size.map Field.int64).toList

def tokenFields (c : Charset) : List Field :=
  match props.tokens with
  | some (owner, group) =>
    if version < 4 then [.cardinal owner.id.toUInt32, .cardinal group.id.toUInt32]
    else [.data (c.encode owner.name).bytes, .data (c.encode group.name).bytes]
  | none => []

def rightsFields : List Field := (props.rights.map fun rights => .cardinal rights.toUInt32).toList

def cardinalTime (time : Int64) : Field := .cardinal (UInt32.ofInt time.toInt)

/-- A time that is not given is replaced by the other one below version 4. -/
def timeFields : List Field :=
  if version < 4 then
    ((props.aTime <|> props.mTime).map cardinalTime).toList ++
      ((props.mTime <|> props.aTime).map cardinalTime).toList
  else (props.aTime.map Field.int64).toList ++ (props.mTime.map Field.int64).toList

/-- The fields in their order. -/
def fields (c : Charset) : List Field :=
  [.cardinal (props.flags version)] ++ (props.typeFields version ++ (props.sizeFields ++
    (props.tokenFields version c ++ (props.rightsFields ++ props.timeFields version))))

end Properties

def Packet.addProperties (c : Charset) (version : Nat) (props : Properties) (p : Packet) :
    Option Packet :=
  (props.fields version c).foldlM Packet.addField p

/-! ## Reading -/

inductive GetFileError
  | packet (failure : Failure)
  | unknownFileType (type : UInt8)

/-- A read moves the position of the packet. -/
abbrev Reader := StateT Packet (Except GetFileError)

namespace Reader

def byte : Reader UInt8 := fun p => p.getByte.mapError .packet
def cardinal : Reader UInt32 := fun p => p.getCardinal.mapError .packet
def int64 : Reader Int64 := fun p => p.getInt64.mapError .packet
def data : Reader (List UInt8) := fun p => p.getRawByteString.mapError .packet

/-- A read that is made when a flag is set. -/
def ifSet {α : Type} (flags flag : UInt32) (default : α) (read : Reader α) : Reader α :=
  if flags &&& flag ≠ 0 then read else pure default

def skip {α : Type} (flags flag : UInt32) (read : Reader α) : Reader Unit :=
  ifSet flags flag () (do let _ ← read; pure ())

end Reader

open Reader

/-- What a file is read with. -/
structure GetFileParams where
  charset : Charset
  version : Nat
  signedTS : Bool
  unixToDateTime : Int → Int

namespace GetFileParams
variable (g : GetFileParams)

/-- The character behind the last type is that of the end of the table. -/
def types : UnicodeString := wstr "U-DLSUOCBF" ++ [0]

def getType (file : TRemoteFile) : Reader TRemoteFile :=
  if 4 ≤ g.version then do
    let fxType ← byte
    match types[fxType.toNat]? with
    | some type => pure (Listing.setType file type)
    | none => throw (.unknownFileType fxType)
  else pure file

def getSize (flags : UInt32) (file : TRemoteFile) : Reader TRemoteFile := do
  let file ← ifSet flags SshFilexferAttr.size file do
    let size ← int64
    pure { file with size := size.toInt }
  skip flags SshFilexferAttr.allocationSize int64
  pure file

/-- A server may set the flag from version 4 on without sending the numbers. -/
def getIDs (flags : UInt32) (file : TRemoteFile) : Reader TRemoteFile :=
  if g.version < 4 then
    ifSet flags SshFilexferAttr.uidGid file do
      let owner ← cardinal
      let group ← cardinal
      pure { file with
        owner := file.owner.setID owner.toInt32, group := file.group.setID group.toInt32 }
  else pure file

def getNames (flags : UInt32) (file : TRemoteFile) : Reader TRemoteFile :=
  ifSet flags SshFilexferAttr.ownerGroup file do
    let owner ← data
    let group ← data
    pure { file with
      owner := file.owner.setName (g.charset.decode owner)
      group := file.group.setName (g.charset.decode group) }

def getTokens (flags : UInt32) (file : TRemoteFile) : Reader TRemoteFile := do
  let file ← g.getIDs flags file
  g.getNames flags file

def cardinalTime (time : UInt32) : Int := if g.signedTS then time.toInt32.toInt else time.toNat

/-- A time with its fraction of a second. -/
def longTime (flags : UInt32) : Reader Int64 := do
  let time ← int64
  skip flags SshFilexferAttr.subsecondTimes cardinal
  pure time

def getTimes (flags : UInt32) (file : TRemoteFile) : Reader TRemoteFile :=
  if g.version < 4 then
    ifSet flags SshFilexferAttr.acModTime file do
      let aTime ← cardinal
      let mTime ← cardinal
      pure { file with
        lastAccess := g.unixToDateTime (g.cardinalTime aTime)
        modification := g.unixToDateTime (g.cardinalTime mTime) }
  else do
    let file ← ifSet flags SshFilexferAttr.accessTime file do
      let aTime ← longTime flags
      pure { file with lastAccess := g.unixToDateTime aTime.toInt }
    skip flags SshFilexferAttr.createTime (longTime flags)
    let file ← ifSet flags SshFilexferAttr.modifyTime file do
      let mTime ← longTime flags
      pure { file with modification := g.unixToDateTime mTime.toInt }
    skip flags SshFilexferAttr.ctime (longTime flags)
    pure file

/-- What only a server sends. -/
def getOthers (flags : UInt32) (file : TRemoteFile) : Reader TRemoteFile := do
  skip flags SshFilexferAttr.acl data
  let file ← ifSet flags SshFilexferAttr.bits file do
    let bits ← cardinal
    let valid ← if 6 ≤ g.version then cardinal else pure bits
    pure { file with isHidden := file.isHidden || bits &&& valid &&& 4 == 4 }
  skip flags SshFilexferAttr.textHint byte
  skip flags SshFilexferAttr.mimeType data
  skip flags SshFilexferAttr.linkCount cardinal
  skip flags SshFilexferAttr.untranslatedName data
  pure file

def rfDirectory : UInt32 := 0o40000

/-- Only the rights themselves are taken of the permissions. Below version 4 these tell a
directory. -/
def setRights (flags permissions : UInt32) (file : TRemoteFile) : TRemoteFile :=
  let given := flags &&& SshFilexferAttr.permissions == SshFilexferAttr.permissions
  let file :=
    if given then
      { file with rights := file.rights.setNumber (permissions.toUInt16.toBitVec &&& rfAllSpecials) }
    else file
  if g.version < 4 then
    Listing.setType file (if given && permissions &&& rfDirectory == rfDirectory then 68 else 45)
  else file

def skipExtended : Nat → Reader Unit
  | 0 => pure ()
  | count + 1 => do
    let _ ← data
    let _ ← data
    skipExtended count

def getFile (file : TRemoteFile) : Reader TRemoteFile := do
  let flags ← cardinal
  let file ← g.getType file
  let file ← getSize flags file
  let file ← g.getTokens flags file
  let permissions ← ifSet flags SshFilexferAttr.permissions 0 cardinal
  let file ← g.getTimes flags file
  let file ← g.getOthers flags file
  skip flags SshFilexferAttr.extended do
    let count ← cardinal
    skipExtended count.toNat
  pure (g.setRights flags permissions file)

end GetFileParams

/-! ## What a reader makes of the fields it finds -/

/-- The bytes of fields. -/
def bytesOf (fields : List Field) : List UInt8 := (fields.flatMap Field.pieces).flatten

theorem bytesOf_append (fs gs : List Field) : bytesOf (fs ++ gs) = bytesOf fs ++ bytesOf gs := by
  simp [bytesOf]

/-- From a position where the fields stand the reader comes to the one behind them. -/
def Yields {α : Type} (read : Reader α) (fields : List Field) (a : α) : Prop :=
  ∀ (p : Packet) (rest : List UInt8), p.data.drop p.position = bytesOf fields ++ rest →
    read p = .ok (a, { p with position := p.position + (bytesOf fields).length })

namespace Yields
variable {α β : Type} {read : Reader α} {a : α} {k l : List Field}

theorem pure (a : α) : Yields (pure a : Reader α) [] a := by
  intro p rest h
  rfl

theorem bind {next : α → Reader β} {b : β} (h : Yields read k a) (hnext : Yields (next a) l b) :
    Yields (read >>= next) (k ++ l) b := by
  intro p rest hp
  rw [bytesOf_append, append_assoc] at hp
  change (read p >>= fun x => next x.1 x.2) = _
  rw [h p _ hp]
  change next a _ = _
  rw [hnext _ rest (Packet.drop_behind hp), bytesOf_append, length_append, Nat.add_assoc]

theorem map {next : α → Reader β} {b : β} (h : Yields read k a) (hnext : next a = Pure.pure b) :
    Yields (read >>= next) k b := by
  have hread := h.bind (hnext ▸ pure b)
  rwa [append_nil] at hread

theorem field (field : Field) (hvalid : field.Valid) {get : Packet → Except Failure (α × Packet)}
    {wrap : α → Field} (hget : ∀ p, p.getField field.kind = (get p).map fun (x, q) => (wrap x, q))
    (hinj : ∀ b, wrap b = field → b = a) :
    Yields (fun p => (get p).mapError .packet) [field] a := by
  intro p rest hp
  have hbytes : bytesOf [field] = field.pieces.flatten := by simp [bytesOf]
  rw [hbytes] at hp ⊢
  have hread := Packet.getField_of_drop hvalid hp
  rw [hget] at hread
  cases hresult : get p with
  | error e =>
    rw [hresult] at hread
    cases hread
  | ok result =>
    rw [hresult] at hread
    simp only [Except.map, Except.ok.injEq, Prod.mk.injEq] at hread
    change (get p).mapError GetFileError.packet = _
    rw [hresult, ← hread.2, ← hinj result.1 hread.1]
    rfl

theorem byte (value : UInt8) : Yields Reader.byte [.byte value] value :=
  field (.byte value) trivial (fun _ => rfl) fun _ h => Field.byte.inj h

theorem cardinal (value : UInt32) : Yields Reader.cardinal [.cardinal value] value :=
  field (.cardinal value) trivial (fun _ => rfl) fun _ h => Field.cardinal.inj h

theorem int64 (value : Int64) : Yields Reader.int64 [.int64 value] value :=
  field (.int64 value) trivial (fun _ => rfl) fun _ h => Field.int64.inj h

theorem data (value : RawByteString) : Yields Reader.data [.data value.bytes] value.bytes :=
  field (.data value.bytes) value.short (fun _ => rfl) fun _ h => Field.data.inj h

theorem ifSet {flags flag : UInt32} (default : α) (hset : flags &&& flag ≠ 0)
    (h : Yields read k a) : Yields (Reader.ifSet flags flag default read) k a := by
  rw [Reader.ifSet, if_pos hset]
  exact h

theorem ifClear {flags flag : UInt32} (default : α) (hclear : flags &&& flag = 0) :
    Yields (Reader.ifSet flags flag default read) [] default := by
  rw [Reader.ifSet, if_neg (not_not.mpr hclear)]
  exact pure default

/-- A reader that reads nothing comes before another one. -/
theorem before {next : α → Reader β} {b : β} (h : Yields read [] a) (hnext : Yields (next a) l b) :
    Yields (read >>= next) l b :=
  h.bind hnext

/-- An attribute that is read when it was given. -/
theorem optional {γ : Type} {flags flag : UInt32} {given : Option γ} {write : γ → Field}
    {f : γ → α} (default : α) (hflag : flags &&& flag ≠ 0 ↔ given.isSome = true)
    (h : ∀ x, Yields read [write x] (f x)) :
    Yields (Reader.ifSet flags flag default read) (given.map write).toList
      (given.elim default f) := by
  cases given with
  | none => exact ifClear default (not_not.mp (mt hflag.mp (by simp)))
  | some x => exact ifSet default (hflag.mpr rfl) (h x)

theorem skipClear {flags flag : UInt32} (hclear : flags &&& flag = 0) (read : Reader α) :
    Yields (Reader.skip flags flag read) [] () :=
  ifClear () hclear

end Yields

/-! ## The flags -/

/-- Flags that are never written. -/
def serverFlags : List UInt32 :=
  [SshFilexferAttr.createTime, SshFilexferAttr.acl, SshFilexferAttr.subsecondTimes,
    SshFilexferAttr.bits, SshFilexferAttr.textHint, SshFilexferAttr.mimeType,
    SshFilexferAttr.linkCount, SshFilexferAttr.untranslatedName, SshFilexferAttr.ctime,
    SshFilexferAttr.extended]

/-- The flags, from what is given below version 4 (`old`) or from version 6 on (`late`). -/
def writtenFlags (old late size tokens rights mTime aTime : Bool) : UInt32 :=
  (if size then if late then SshFilexferAttr.allocationSize else SshFilexferAttr.size else 0) |||
  (if tokens then if old then SshFilexferAttr.uidGid else SshFilexferAttr.ownerGroup else 0) |||
  (if rights then SshFilexferAttr.permissions else 0) |||
  (if old && (mTime || aTime) then SshFilexferAttr.acModTime else 0) |||
  (if !old && aTime then SshFilexferAttr.accessTime else 0) |||
  (if !old && mTime then SshFilexferAttr.modifyTime else 0)

theorem flags_eq (props : Properties) (version : Nat) :
    props.flags version = writtenFlags (version < 4) (6 ≤ version) props.size.isSome
      props.tokens.isSome props.rights.isSome props.mTime.isSome props.aTime.isSome := by
  simp only [Properties.flags, Properties.allocationSizeAttribute, writtenFlags, decide_eq_true_eq,
    Bool.and_eq_true, Bool.or_eq_true, Bool.not_eq_true', decide_eq_false_iff_not, Nat.not_lt]

theorem writtenFlags_mean : ∀ old late size tokens rights mTime aTime : Bool,
    let flags := writtenFlags old late size tokens rights mTime aTime
    (flags &&& SshFilexferAttr.size ≠ 0 ↔ size ∧ late = false) ∧
    (flags &&& SshFilexferAttr.allocationSize ≠ 0 ↔ size ∧ late) ∧
    (flags &&& SshFilexferAttr.uidGid ≠ 0 ↔ tokens ∧ old) ∧
    (flags &&& SshFilexferAttr.ownerGroup ≠ 0 ↔ tokens ∧ old = false) ∧
    (flags &&& SshFilexferAttr.permissions = if rights then SshFilexferAttr.permissions else 0) ∧
    (flags &&& SshFilexferAttr.accessTime ≠ 0 ↔ aTime ∨ (old ∧ mTime)) ∧
    (flags &&& SshFilexferAttr.modifyTime ≠ 0 ↔ mTime ∧ old = false) ∧
    serverFlags.all fun flag => flags &&& flag == 0 := by
  decide +kernel

/-- What each flag that was written stands for. -/
structure FlagsMean (props : Properties) (version : Nat) (flags : UInt32) : Prop where
  size : flags &&& SshFilexferAttr.size ≠ 0 ↔ props.size.isSome ∧ version < 6
  allocationSize : flags &&& SshFilexferAttr.allocationSize ≠ 0 ↔ props.size.isSome ∧ 6 ≤ version
  uidGid : flags &&& SshFilexferAttr.uidGid ≠ 0 ↔ props.tokens.isSome ∧ version < 4
  ownerGroup : flags &&& SshFilexferAttr.ownerGroup ≠ 0 ↔ props.tokens.isSome ∧ 4 ≤ version
  permissions : flags &&& SshFilexferAttr.permissions =
    if props.rights.isSome then SshFilexferAttr.permissions else 0
  aTime : flags &&& SshFilexferAttr.accessTime ≠ 0 ↔
    props.aTime.isSome ∨ (version < 4 ∧ props.mTime.isSome)
  mTime : flags &&& SshFilexferAttr.modifyTime ≠ 0 ↔ props.mTime.isSome ∧ 4 ≤ version
  server : ∀ flag ∈ serverFlags, flags &&& flag = 0

theorem flagsMean (props : Properties) (version : Nat) :
    FlagsMean props version (props.flags version) := by
  rw [flags_eq]
  obtain ⟨hsize, hallocation, hids, hnames, hrights, haTime, hmTime, hserver⟩ :=
    writtenFlags_mean (version < 4) (6 ≤ version) props.size.isSome props.tokens.isSome
      props.rights.isSome props.mTime.isSome props.aTime.isSome
  simp only [decide_eq_true_eq, decide_eq_false_iff_not, Nat.not_le, Nat.not_lt]
    at hsize hallocation hids hnames haTime hmTime
  refine ⟨hsize, hallocation, hids, hnames, hrights, haTime, hmTime, ?_⟩
  intro flag hflag
  exact beq_iff_eq.mp (all_eq_true.mp hserver flag hflag)

/-- The time that is read for a time that was written, where the other one may stand in below
version 4. There it has 32 bits. -/
def GetFileParams.timeRead (g : GetFileParams) (own other : Option Int64) : Option Int :=
  if g.version < 4 then
    (own <|> other).map fun time =>
      if g.signedTS then time.toInt.bmod (2 ^ 32) else time.toInt % 2 ^ 32
  else own.map Int64.toInt

/-! ## The parts of the block -/

theorem flag_clear {flags flag : UInt32} {P : Prop} (h : flags &&& flag ≠ 0 ↔ P) (hnot : ¬ P) :
    flags &&& flag = 0 :=
  not_not.mp (mt h.mp hnot)

section Parts
variable {props : Properties} {g : GetFileParams} {flags : UInt32}

theorem yields_getType (file : TRemoteFile) : ∃ type isSymLink,
    Yields (g.getType file) (props.typeFields g.version) { file with type, isSymLink } := by
  unfold GetFileParams.getType Properties.typeFields
  split
  · cases props.isDirectory with
    | false => exact ⟨_, _, (Yields.byte 1).map (b := Listing.setType file 45) rfl⟩
    | true => exact ⟨_, _, (Yields.byte 2).map (b := Listing.setType file 68) rfl⟩
  · exact ⟨_, _, Yields.pure file⟩

variable (h : FlagsMean props g.version flags)
include h

theorem yields_getSize (file : TRemoteFile) :
    Yields (GetFileParams.getSize flags file) props.sizeFields { file with
      size := if g.version < 6 then props.size.elim file.size Int64.toInt else file.size } := by
  have hsize : ∀ s, Yields (do
      let size ← Reader.int64
      pure { file with size := size.toInt }) [Field.int64 s] { file with size := s.toInt } :=
    fun s => (Yields.int64 s).map rfl
  have hskip : ∀ s, Yields (do let _ ← Reader.int64; pure ()) [Field.int64 s] () :=
    fun s => (Yields.int64 s).map rfl
  unfold GetFileParams.getSize Properties.sizeFields
  by_cases hold : g.version < 6
  · rw [← append_nil (props.size.map Field.int64).toList]
    refine (Yields.optional file (by simp [h.size, hold]) hsize).bind ?_
    refine (Yields.skipClear (flag_clear h.allocationSize (by omega)) _).map ?_
    cases props.size <;> simp [hold]
  · refine (Yields.ifClear file (flag_clear h.size (by omega))).before ?_
    refine (Yields.optional () (by simp [h.allocationSize]; omega) hskip).map ?_
    simp [hold]

/-- Numbers and names are two reads, of which at most one finds something. -/
theorem yields_getTokens (file : TRemoteFile) : ∃ owner group,
    Yields (g.getTokens flags file) (props.tokenFields g.version g.charset)
      { file with owner, group } := by
  unfold GetFileParams.getTokens Properties.tokenFields
  cases htokens : props.tokens with
  | none =>
    have hids : flags &&& SshFilexferAttr.uidGid = 0 := flag_clear h.uidGid (by simp [htokens])
    have hnames : flags &&& SshFilexferAttr.ownerGroup = 0 :=
      flag_clear h.ownerGroup (by simp [htokens])
    have hread : Yields (g.getIDs flags file) [] file := by
      unfold GetFileParams.getIDs
      split
      · exact Yields.ifClear file hids
      · exact Yields.pure file
    exact ⟨file.owner, file.group, hread.before (Yields.ifClear file hnames)⟩
  | some tokens =>
    obtain ⟨owner, group⟩ := tokens
    have hsome : props.tokens.isSome = true := by rw [htokens]; rfl
    unfold GetFileParams.getIDs
    by_cases hold : g.version < 4
    · have hnames : flags &&& SshFilexferAttr.ownerGroup = 0 := flag_clear h.ownerGroup (by omega)
      simp only [if_pos hold]
      refine ⟨file.owner.setID owner.id.toUInt32.toInt32,
        file.group.setID group.id.toUInt32.toInt32, ?_⟩
      refine Yields.bind (k := [_, _]) (l := [])
        (Yields.ifSet file (h.uidGid.mpr ⟨hsome, hold⟩) ?_) (Yields.ifClear _ hnames)
      refine Yields.bind (k := [_]) (l := [_]) (Yields.cardinal _) ?_
      exact (Yields.cardinal _).map rfl
    · simp only [if_neg hold]
      refine ⟨file.owner.setName (g.charset.decode (g.charset.encode owner.name).bytes),
        file.group.setName (g.charset.decode (g.charset.encode group.name).bytes), ?_⟩
      refine (Yields.pure file).before (Yields.ifSet file (h.ownerGroup.mpr ⟨hsome, by omega⟩) ?_)
      refine Yields.bind (k := [_]) (l := [_]) (Yields.data _) ?_
      exact (Yields.data _).map rfl

theorem clear_server {flag : UInt32} (hflag : serverFlags.contains flag = true) :
    flags &&& flag = 0 :=
  h.server flag (contains_iff_mem.mp hflag)

omit h in
theorem cardinalTime_ofInt (x : Int) : g.cardinalTime (UInt32.ofInt x) =
    if g.signedTS then x.bmod (2 ^ 32) else x % 2 ^ 32 := by
  unfold GetFileParams.cardinalTime
  split
  · change (UInt32.ofInt x).toBitVec.toInt = _
    rw [BitVec.toInt_eq_toNat_bmod]
    change ((UInt32.ofInt x).toNat : Int).bmod (2 ^ 32) = _
    rw [Packet.toNat_ofInt]
    exact Int.emod_bmod x (2 ^ 32)
  · exact Packet.toNat_ofInt x

theorem yields_longTime (time : Int64) :
    Yields (GetFileParams.longTime flags) [Field.int64 time] time := by
  refine Yields.bind (l := []) (Yields.int64 time) ?_
  exact (Yields.skipClear (clear_server h (by decide)) _).map rfl

theorem yields_getTimes (file : TRemoteFile) :
    Yields (g.getTimes flags file) (props.timeFields g.version) { file with
      lastAccess := (g.timeRead props.aTime props.mTime).elim file.lastAccess g.unixToDateTime
      modification := (g.timeRead props.mTime props.aTime).elim file.modification g.unixToDateTime } := by
  unfold GetFileParams.getTimes Properties.timeFields GetFileParams.timeRead
  by_cases hold : g.version < 4
  · simp only [if_pos hold]
    have hflag : flags &&& SshFilexferAttr.acModTime ≠ 0 ↔
        props.aTime.isSome ∨ (g.version < 4 ∧ props.mTime.isSome) := h.aTime
    cases haTime : props.aTime <;> cases hmTime : props.mTime
    · exact Yields.ifClear file (flag_clear hflag (by simp [haTime, hmTime]))
    all_goals
      refine Yields.ifSet file (hflag.mpr (by simp [haTime, hmTime, hold])) ?_
      refine Yields.bind (k := [_]) (l := [_]) (Yields.cardinal _) ?_
      refine (Yields.cardinal _).map ?_
      simp [cardinalTime_ofInt]
  · simp only [if_neg hold]
    have haTime : ∀ file : TRemoteFile, ∀ time, Yields (do
        let aTime ← GetFileParams.longTime flags
        pure { file with lastAccess := g.unixToDateTime aTime.toInt }) [Field.int64 time]
        { file with lastAccess := g.unixToDateTime time.toInt } :=
      fun file time => (yields_longTime h time).map rfl
    have hmTime : ∀ file : TRemoteFile, ∀ time, Yields (do
        let mTime ← GetFileParams.longTime flags
        pure { file with modification := g.unixToDateTime mTime.toInt }) [Field.int64 time]
        { file with modification := g.unixToDateTime time.toInt } :=
      fun file time => (yields_longTime h time).map rfl
    refine (Yields.optional file (by simp [h.aTime, hold]) (haTime file)).bind ?_
    refine (Yields.skipClear (clear_server h (by decide)) _).before ?_
    rw [← append_nil (props.mTime.map Field.int64).toList]
    refine (Yields.optional _ (by simp [h.mTime]; omega) (hmTime _)).bind ?_
    refine (Yields.skipClear (clear_server h (by decide)) _).map ?_
    cases props.aTime <;> cases props.mTime <;> rfl

theorem yields_getOthers (file : TRemoteFile) : Yields (g.getOthers flags file) [] file := by
  unfold GetFileParams.getOthers
  refine (Yields.skipClear (clear_server h (by decide)) _).before ?_
  refine (Yields.ifClear file (clear_server h (by decide))).before ?_
  refine (Yields.skipClear (clear_server h (by decide)) _).before ?_
  refine (Yields.skipClear (clear_server h (by decide)) _).before ?_
  refine (Yields.skipClear (clear_server h (by decide)) _).before ?_
  exact (Yields.skipClear (clear_server h (by decide)) _).map rfl

theorem yields_permissions :
    Yields (ifSet flags SshFilexferAttr.permissions 0 cardinal) props.rightsFields
      (props.rights.elim 0 UInt16.toUInt32) := by
  refine Yields.optional 0 ?_ fun rights => Yields.cardinal rights.toUInt32
  rw [h.permissions]
  cases props.rights <;> simp [SshFilexferAttr.permissions]

/-- The rights that are set are the given ones, as far as they are rights. -/
theorem setRights_getNumber (file : TRemoteFile) {rights : UInt16}
    (hrights : props.rights = some rights) :
    (g.setRights flags (props.rights.elim 0 UInt16.toUInt32) file).rights.getNumber =
      rights.toBitVec &&& rfAllSpecials := by
  have hgiven : (flags &&& SshFilexferAttr.permissions == SshFilexferAttr.permissions) = true := by
    rw [h.permissions, hrights]
    rfl
  have hset : ∀ r : TRights, (r.setNumber (rights.toBitVec &&& rfAllSpecials)).getNumber =
      rights.toBitVec &&& rfAllSpecials :=
    fun r => TRights.setNumber_set r _
  simp only [GetFileParams.setRights, hgiven, if_true, hrights, Option.elim_some,
    UInt16.toUInt16_toUInt32]
  split
  · exact hset _
  · exact hset _

omit h in
/-- Nothing else is set along with the rights but the type. -/
theorem setRights_keeps (permissions : UInt32) (file : TRemoteFile) :
    (g.setRights flags permissions file).lastAccess = file.lastAccess ∧
    (g.setRights flags permissions file).modification = file.modification ∧
    (g.setRights flags permissions file).size = file.size := by
  unfold GetFileParams.setRights
  dsimp only
  split <;> split <;> exact ⟨rfl, rfl, rfl⟩

end Parts

/-! ## The block -/

/-- What was written is in the file. Of the number that is given for the rights those are the
bits that are rights; the others tell a server's type of a file. -/
structure Recovered (props : Properties) (g : GetFileParams) (file : TRemoteFile) : Prop where
  rights : ∀ rights, props.rights = some rights →
    file.rights.getNumber = rights.toBitVec &&& rfAllSpecials
  aTime : ∀ time, g.timeRead props.aTime props.mTime = some time →
    file.lastAccess = g.unixToDateTime time
  mTime : ∀ time, g.timeRead props.mTime props.aTime = some time →
    file.modification = g.unixToDateTime time
  size : g.version < 6 → ∀ size, props.size = some size → file.size = size.toInt

/-- The whole block is read, and all is recovered. -/
theorem yields_getFile (props : Properties) (g : GetFileParams) (file : TRemoteFile) :
    ∃ f, Yields (g.getFile file) (props.fields g.version g.charset) f ∧ Recovered props g f := by
  have h := flagsMean props g.version
  obtain ⟨type, isSymLink, htype⟩ := @yields_getType props g file
  obtain ⟨owner, group, htokens⟩ := yields_getTokens h { file with
    type, isSymLink
    size := if g.version < 6 then props.size.elim file.size Int64.toInt else file.size }
  let dated : TRemoteFile := { file with
    type, isSymLink, owner, group
    size := if g.version < 6 then props.size.elim file.size Int64.toInt else file.size
    lastAccess := (g.timeRead props.aTime props.mTime).elim file.lastAccess g.unixToDateTime
    modification := (g.timeRead props.mTime props.aTime).elim file.modification g.unixToDateTime }
  refine ⟨g.setRights (props.flags g.version) (props.rights.elim 0 UInt16.toUInt32) dated, ?_, ?_⟩
  · refine (Yields.cardinal _).bind (htype.bind ((yields_getSize h _).bind (htokens.bind
      ((yields_permissions h).bind ?_))))
    rw [← append_nil (props.timeFields g.version)]
    refine (yields_getTimes h _).bind ((yields_getOthers h _).before ?_)
    exact (Yields.skipClear (clear_server h (by decide)) _).map rfl
  · obtain ⟨haTime, hmTime, hsize⟩ := @setRights_keeps g (props.flags g.version)
      (props.rights.elim 0 UInt16.toUInt32) dated
    refine ⟨fun rights => setRights_getNumber h dated, ?_, ?_, ?_⟩
    · intro time htime
      rw [haTime]
      simp only [dated, htime, Option.elim_some]
    · intro time htime
      rw [hmTime]
      simp only [dated, htime, Option.elim_some]
    · intro hold size hgiven
      rw [hsize]
      simp only [dated, if_pos hold, hgiven, Option.elim_some]

theorem fields_valid (props : Properties) (version : Nat) (c : Charset) :
    ∀ field ∈ props.fields version c, field.Valid := by
  have hgiven : ∀ {γ : Type} (given : Option γ) (write : γ → Field), (∀ x, (write x).Valid) →
      ∀ field ∈ (given.map write).toList, field.Valid := by
    intro γ given write hwrite field hfield
    obtain ⟨x, -, rfl⟩ := Option.map_eq_some_iff.mp (Option.mem_toList.mp hfield)
    exact hwrite x
  simp only [Properties.fields, forall_mem_append, forall_mem_singleton]
  refine ⟨trivial, ?_, hgiven _ _ fun _ => trivial, ?_, hgiven _ _ fun _ => trivial, ?_⟩
  · unfold Properties.typeFields
    split <;> simp [Field.Valid]
  · unfold Properties.tokenFields
    split
    · split
      · simp [Field.Valid]
      · simp only [forall_mem_cons, Field.Valid, not_mem_nil, false_implies, implies_true,
          and_true]
        exact ⟨(c.encode _).short, (c.encode _).short⟩
    · simp
  · unfold Properties.timeFields
    split <;> exact forall_mem_append.mpr
      ⟨hgiven _ _ fun _ => trivial, hgiven _ _ fun _ => trivial⟩

theorem addProperties_spec (c : Charset) (version : Nat) (props : Properties) (start : Packet)
    (hstart : start.capacity + Packet.sendPrefixLen < 2 ^ 32) :
    let lengths := ((props.fields version c).flatMap Field.pieces).map List.length
    (HasRoom start.data.length start.capacity lengths ∧
      ∃ p, start.addProperties c version props = some p ∧
        p.data = start.data ++ bytesOf (props.fields version c)) ∨
    (¬ HasRoom start.data.length start.capacity lengths ∧
      start.addProperties c version props = none) := by
  have hpieces : ∀ bytes ∈ (props.fields version c).flatMap Field.pieces, bytes.length < 2 ^ 31 := by
    intro bytes h
    obtain ⟨field, hfield, hmem⟩ := mem_flatMap.mp h
    exact length_of_mem_pieces (fields_valid props version c field hfield) hmem
  dsimp only
  rw [Packet.addProperties, Packet.foldlM_addField]
  exact Packet.foldlM_append _ hstart hpieces

/-- The block is written behind what is in a packet, read from there to the last byte, and what
was written is in the file then. -/
def BlockRoundTrip (props : Properties) (g : GetFileParams) (start : Packet) (file : TRemoteFile) :
    Prop :=
  ∃ p q f, start.addProperties g.charset g.version props = some p ∧
    g.getFile file { p with position := start.data.length } = .ok (f, q) ∧
    q.position = q.data.length ∧ Recovered props g f

/-- Attributes are read back as they were written, in every version and whichever of them
are given, just when the block has room in the packet. A block without room is written behind
the end of the buffer. -/
theorem attributes_roundTrip_iff (props : Properties) (g : GetFileParams) (start : Packet)
    (hstart : start.capacity + Packet.sendPrefixLen < 2 ^ 32) (file : TRemoteFile) :
    BlockRoundTrip props g start file ↔
      HasRoom start.data.length start.capacity
        (((props.fields g.version g.charset).flatMap Field.pieces).map List.length) := by
  obtain ⟨f, hread, hrecovered⟩ := yields_getFile props g file
  rcases addProperties_spec g.charset g.version props start hstart with
    ⟨hroom, p, hp, hdata⟩ | ⟨hroom, hnone⟩
  · have hdrop : p.data.drop start.data.length =
        bytesOf (props.fields g.version g.charset) ++ [] := by
      rw [hdata, List.drop_left, List.append_nil]
    have hend : start.data.length + (bytesOf (props.fields g.version g.charset)).length =
        p.data.length := by
      rw [hdata, List.length_append]
    have hfound := hread { p with position := start.data.length } [] hdrop
    exact iff_of_true ⟨p, _, f, hp, hfound, hend, hrecovered⟩ hroom
  · refine iff_of_false ?_ hroom
    rintro ⟨p, q, f, hp, -⟩
    rw [hnone] at hp
    cases hp

/-- A file of version 3 with its rights and one time. -/
theorem attributes_roundTrip_rights :
    BlockRoundTrip { rights := some 0o644, mTime := some 5 }
      ⟨⟨fun _ => ⟨[], by decide⟩, fun _ => []⟩, 3, false, id⟩ (.init 0) {} :=
  (attributes_roundTrip_iff { rights := some 0o644, mTime := some 5 }
    ⟨⟨fun _ => ⟨[], by decide⟩, fun _ => []⟩, 3, false, id⟩ (.init 0) (by decide) {}).mpr (by
      simp [HasRoom, RoomFor, Properties.fields, Properties.typeFields, Properties.sizeFields,
        Properties.tokenFields, Properties.tokens, Properties.rightsFields, Properties.timeFields,
        Properties.cardinalTime, Field.pieces, NetBox.Lib.Bytes.put32]
      decide)

/-- Two names of the greatest length are too much. -/
theorem attributes_outgrow : ∃ (g : GetFileParams) (props : Properties), props.rights = none ∧
    ¬ BlockRoundTrip props g (.init 0) {} := by
  obtain ⟨name, hname⟩ : ∃ name : List UInt8, name.length = 2 ^ 31 - 1 :=
    ⟨.replicate _ 0, List.length_replicate⟩
  refine ⟨⟨⟨fun _ => ⟨name, by omega⟩, fun _ => []⟩, 4, false, id⟩,
    { owner := some {}, group := some {} }, rfl, ?_⟩
  rintro ⟨p, q, f, hp, -⟩
  rcases addProperties_spec ⟨fun _ => ⟨name, by omega⟩, fun _ => []⟩ 4
    { owner := some {}, group := some {} } (.init 0) (by decide) with ⟨hroom, -⟩ | ⟨-, hnone⟩
  · simp [HasRoom, RoomFor, Properties.fields, Properties.typeFields, Properties.sizeFields,
      Properties.tokenFields, Properties.tokens, Properties.rightsFields, Properties.timeFields,
      Field.pieces, NetBox.Lib.Bytes.put32, hname, sftpPacketAllocDelta, Packet.sendPrefixLen,
      Packet.init] at hroom
  · rw [hnone] at hp
    cases hp

end NetBox.Sftp
