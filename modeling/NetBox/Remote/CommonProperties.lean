import NetBox.Base.Url
import NetBox.Remote.RightsHistory
import NetBox.Remote.Tokens

/-! # What the files of a selection have in common

`TRemoteProperties::CommonProperties` begins with the properties of the first file and
merges the other files into them. A right that differs becomes undefined; an owner, a
group or tags that differ stop being valid and never become valid again.
-/
namespace NetBox.Remote
open Base.Text List Lib.Run

inductive TValidProperty
  | rights
  | group
  | owner
  | modification
  | lastAccess
  | encrypt
  | tags
deriving DecidableEq

/-- The set `TValidProperties`, with `<<` and `>>`. -/
abbrev TValidProperties := TValidProperty → Bool

namespace TValidProperties

def insert (valid : TValidProperties) (p : TValidProperty) : TValidProperties :=
  fun q => valid q || decide (q = p)

def erase (valid : TValidProperties) (p : TValidProperty) : TValidProperties :=
  fun q => valid q && !decide (q = p)

end TValidProperties

def TRights.isUndef (r : TRights) : Bool := r.set ||| r.unset != rfAllSpecials

/-- `operator ==`. The names are compared as NUL-terminated texts. -/
def TRemoteToken.same (t rhs : TRemoteToken) : Bool :=
  uptoNul t.name == uptoNul rhs.name && t.idValid == rhs.idValid && (!t.idValid || t.id == rhs.id)

/-- The rights that operations on new ones make. -/
def TRights.Made (r : TRights) : Prop :=
  ∃ vars x, Reaches RightsOp.step (fun _ _ => True) (fun _ => .ofNumber 0) vars ∧ vars x = r

/-- What is read of a `TRemoteFile`. Names are copied from NUL-terminated buffers. -/
structure SelectedFile where
  rights : TRights
  owner : TRemoteToken
  group : TRemoteToken
  tags : UnicodeString
  made : rights.Made
  owner_name : 0 ∉ owner.name
  group_name : 0 ∉ group.name

structure TRemoteProperties where
  valid : TValidProperties := fun _ => false
  rights : TRights := .ofNumber 0
  group : TRemoteToken := {}
  owner : TRemoteToken := {}
  tags : UnicodeString := []

namespace TRemoteProperties

/-- The first round of the loop. -/
def ofFile (file : SelectedFile) : TRemoteProperties :=
  let p : TRemoteProperties := {}
  let p := if !file.rights.unknown then
      { p with
        rights := file.rights.setAllowUndef file.rights.isUndef
        valid := p.valid.insert .rights }
    else p
  let p := if file.owner.isSet then { p with owner := file.owner, valid := p.valid.insert .owner }
    else p
  let p := if file.group.isSet then { p with group := file.group, valid := p.valid.insert .group }
    else p
  { p with tags := file.tags, valid := p.valid.insert .tags }

/-- The other rounds. -/
def merge (p : TRemoteProperties) (file : SelectedFile) : TRemoteProperties :=
  let p := { p with rights := (p.rights.setAllowUndef true).andRights file.rights }
  let p := if !p.owner.same file.owner then
      { p with owner := p.owner.clear, valid := p.valid.erase .owner }
    else p
  let p := if !p.group.same file.group then
      { p with group := p.group.clear, valid := p.valid.erase .group }
    else p
  if uptoNul p.tags != uptoNul file.tags then
    { p with tags := [], valid := p.valid.erase .tags }
  else p

def commonProperties : List SelectedFile → TRemoteProperties
  | [] => {}
  | file :: files => files.foldl merge (ofFile file)

end TRemoteProperties

/-! ## Rights -/

/-- No operation makes rights unknown. -/
theorem RightsOp.known_written {vars : RightsVars} (h : ∀ x, (vars x).unknown = false)
    (op : RightsOp) : (op.written vars).unknown = false := by
  have hsame : ∀ (r : TRights) (result : Except RightsError TRights), r.unknown = false →
      (∀ r', result = .ok r' → r'.unknown = false) → (r.orSame result).unknown = false := by
    intro r result hr hok
    cases result with
    | ok r' => exact hok r' rfl
    | error e => exact hr
  cases op with
  | assign x y => exact h y
  | text x value =>
    refine hsame _ _ (h x) fun r' hr => ?_
    unfold TRights.setText at hr
    split at hr
    · cases hr
      rfl
    · split at hr
      · cases hr
      · cases hr
        rfl
  | textOverride x value =>
    simp only [written, TRights.setTextOverride]
    split
    · rfl
    · exact h x
  | octal x value =>
    refine hsame _ _ (h x) fun r' hr => ?_
    unfold TRights.setOctal at hr
    dsimp only at hr
    repeat' split at hr
    all_goals cases hr
    all_goals rfl
  | allowUndef x value => exact h x
  | andRights x y =>
    simp only [written, TRights.andRights]
    split
    · refine foldlRecOn (motive := fun r : TRights => r.unknown = false) _ _ (h x)
        fun r hr right _ => ?_
      unfold TRights.andRight
      split
      · rfl
      · exact hr
    · rfl
  | _ => rfl

theorem TRights.Made.known {r : TRights} (h : r.Made) : r.unknown = false := by
  obtain ⟨vars, x, hreach, rfl⟩ := h
  refine hreach.invariant (P := fun vars => ∀ x, (vars x).unknown = false) (fun _ => rfl) ?_ x
  intro vars op next hknown _ hstep y
  obtain rfl := Option.some.inj hstep
  rw [Function.update_apply]
  split
  · exact op.known_written hknown
  · exact hknown y

/-- Two states agree, or the right is undefined. -/
def RightState.meet (a b : RightState) : RightState := if a = b then a else .undef

theorem RightState.foldl_meet {v : RightState} (hv : v ≠ .undef) (a : RightState)
    (l : List RightState) : l.foldl meet a = v ↔ a = v ∧ ∀ b ∈ l, b = v := by
  induction l generalizing a with
  | nil => simp
  | cons b l ih =>
    rw [foldl_cons, ih, forall_mem_cons, meet]
    split
    next hab =>
      subst hab
      simp
    next hab =>
      refine iff_of_false (fun h => hv h.1.symm) fun h => hab ?_
      rw [h.1, h.2.1]

namespace TRights

theorem getRightUndef_setRightUndef (r : TRights) (right other : Right) :
    (r.setRightUndef right .undef).getRightUndef other =
      if other = right then .undef else r.getRightUndef other := by
  unfold setRightUndef
  split
  · by_cases h : other = right
    · subst h
      simp [getRightUndef_eq, getLsbD_rightToFlag]
    · have hne : bitOf other ≠ bitOf right := by
        intro heq
        unfold bitOf at heq
        exact h (Fin.ext (by omega))
      have hlt : bitOf other < 16 := by
        unfold bitOf
        omega
      simp only [getRightUndef_eq, BitVec.getLsbD_and, BitVec.getLsbD_not, getLsbD_rightToFlag,
        hne, hlt, h, decide_false, decide_true, Bool.not_false, Bool.and_true, if_false]
  next hsame =>
    rw [not_not] at hsame
    split
    next h =>
      subst h
      exact hsame.symm
    · rfl

theorem getRightUndef_andRight (rhs r : TRights) (right other : Right) :
    (andRight rhs r right).getRightUndef other =
      if other = right then (r.getRightUndef other).meet (rhs.getRightUndef other)
      else r.getRightUndef other := by
  by_cases h : other = right
  · subst h
    rw [if_pos rfl, andRight, RightState.meet]
    by_cases hsame : r.getRightUndef other = rhs.getRightUndef other
    · rw [if_neg (not_not.mpr hsame), if_pos hsame]
    · rw [if_pos hsame, if_neg hsame, getRightUndef_setRightUndef, if_pos rfl]
  · rw [if_neg h, andRight]
    split
    · rw [getRightUndef_setRightUndef, if_neg h]
    · rfl

/-- The loop meets every right once, and a second time changes nothing. -/
theorem getRightUndef_foldl_andRight (rhs : TRights) (l : List Right) (r : TRights)
    (right : Right) :
    (right ∈ l → (l.foldl (andRight rhs) r).getRightUndef right =
      (r.getRightUndef right).meet (rhs.getRightUndef right)) ∧
    (right ∉ l → (l.foldl (andRight rhs) r).getRightUndef right = r.getRightUndef right) := by
  induction l generalizing r with
  | nil => exact ⟨fun h => absurd h not_mem_nil, fun _ => rfl⟩
  | cons a l ih =>
    obtain ⟨hin, hout⟩ := ih (andRight rhs r a)
    rw [getRightUndef_andRight] at hin hout
    rw [foldl_cons]
    by_cases ha : right = a
    · have hagain : ∀ x y : RightState, (x.meet y).meet y = x.meet y := by
        intro x y
        cases x <;> cases y <;> rfl
      rw [if_pos ha] at hin hout
      refine ⟨fun _ => ?_, fun hnot => absurd (ha ▸ mem_cons_self) hnot⟩
      by_cases hmem : right ∈ l
      · rw [hin hmem, hagain]
      · exact hout hmem
    · rw [if_neg ha] at hin hout
      simp only [mem_cons, ha, false_or]
      exact ⟨hin, hout⟩

/-- Merging with undefined rights allowed is the meet of every right. -/
theorem getRightUndef_andRights (r rhs : TRights) (right : Right) :
    ((r.setAllowUndef true).andRights rhs).getRightUndef right =
      (r.getRightUndef right).meet (rhs.getRightUndef right) := by
  rw [andRights, if_pos (by simp [setAllowUndef]),
    (getRightUndef_foldl_andRight ..).1 (mem_finRange right)]
  rfl

end TRights

/-! ## Owners and groups -/

namespace TRemoteToken

variable {t u : TRemoteToken}

/-- What is compared of a token. -/
def compared (t : TRemoteToken) : UnicodeString × Option Int32 := (uptoNul t.name, t.idKey)

theorem same_iff : t.same u = true ↔ t.compared = u.compared := by
  rw [same, compared, compared, Prod.mk.injEq, idKey, idKey]
  cases t.idValid <;> cases u.idValid <;> simp

theorem isSet_of_same (ht : 0 ∉ t.name) (hu : 0 ∉ u.name) (h : t.same u = true) :
    t.isSet = u.isSet := by
  rw [same_iff, compared, compared, uptoNul_eq ht, uptoNul_eq hu, Prod.mk.injEq, idKey, idKey] at h
  rw [isSet, isSet, h.1]
  cases ht : t.idValid <;> cases hu : u.idValid <;> simp [ht, hu] at h ⊢

end TRemoteToken

/-- All files have the same owner or group, and it is set. -/
def HaveSame (token : SelectedFile → TRemoteToken) (files : List SelectedFile) : Prop :=
  ∃ t : TRemoteToken, ∀ file ∈ files, (token file).isSet = true ∧ (token file).same t = true

theorem haveSame_cons {token : SelectedFile → TRemoteToken}
    (hname : ∀ file, 0 ∉ (token file).name) (file : SelectedFile) (files : List SelectedFile) :
    HaveSame token (file :: files) ↔ (token file).isSet = true ∧
      ∀ other ∈ files, (token file).same (token other) = true := by
  constructor
  · intro ⟨t, h⟩
    rw [forall_mem_cons] at h
    refine ⟨h.1.1, fun other hother => ?_⟩
    rw [TRemoteToken.same_iff, TRemoteToken.same_iff.mp h.1.2,
      TRemoteToken.same_iff.mp (h.2 other hother).2]
  · intro ⟨hset, h⟩
    refine ⟨token file, forall_mem_cons.mpr ⟨⟨hset, ?_⟩, fun other hother => ⟨?_, ?_⟩⟩⟩
    · exact TRemoteToken.same_iff.mpr rfl
    · rw [← TRemoteToken.isSet_of_same (hname file) (hname other) (h other hother), hset]
    · exact TRemoteToken.same_iff.mpr (TRemoteToken.same_iff.mp (h other hother)).symm

namespace TRemoteProperties

theorem merge_right (p : TRemoteProperties) (file : SelectedFile) (right : Right) :
    (p.merge file).rights.getRightUndef right =
      (p.rights.getRightUndef right).meet (file.rights.getRightUndef right) := by
  rw [← TRights.getRightUndef_andRights]
  unfold merge
  dsimp only
  split <;> split <;> split <;> rfl

theorem foldl_merge_right (files : List SelectedFile) (p : TRemoteProperties) (right : Right) :
    (files.foldl merge p).rights.getRightUndef right =
      (files.map fun file => file.rights.getRightUndef right).foldl .meet
        (p.rights.getRightUndef right) := by
  induction files generalizing p with
  | nil => rfl
  | cons file files ih => rw [foldl_cons, ih, merge_right, map_cons, foldl_cons]

theorem ofFile_right (file : SelectedFile) (right : Right) :
    (ofFile file).rights.getRightUndef right = file.rights.getRightUndef right := by
  unfold ofFile
  rw [file.made.known]
  dsimp only
  split <;> split <;> rfl

/-- A token stays valid through all files that have the same one. -/
theorem valid_iff_haveSame {kind : TValidProperty} {token : TRemoteProperties → TRemoteToken}
    {key : SelectedFile → TRemoteToken} (hname : ∀ file, 0 ∉ (key file).name)
    (hfirst : ∀ file, (ofFile file).valid kind = (key file).isSet ∧
      ((key file).isSet = true → token (ofFile file) = key file))
    (hkeep : ∀ p file, (token p).same (key file) = true → token (p.merge file) = token p)
    (hvalid : ∀ p file, (p.merge file).valid kind = (p.valid kind && (token p).same (key file)))
    (file : SelectedFile) (files : List SelectedFile) :
    (commonProperties (file :: files)).valid kind = true ↔ HaveSame key (file :: files) := by
  have hfold : ∀ p, (files.foldl merge p).valid kind = true ↔
      p.valid kind = true ∧ ∀ other ∈ files, (token p).same (key other) = true := by
    intro p
    induction files generalizing p with
    | nil => simp
    | cons other files ih =>
      rw [foldl_cons, ih, forall_mem_cons, hvalid]
      cases hsame : (token p).same (key other) with
      | true =>
        rw [hkeep p other hsame]
        simp
      | false => simp
  obtain ⟨hset, htoken⟩ := hfirst file
  rw [commonProperties, hfold, haveSame_cons hname, hset]
  refine and_congr_right fun h => ?_
  rw [htoken h]

theorem merge_owner (p : TRemoteProperties) (file : SelectedFile) :
    (p.owner.same file.owner = true → (p.merge file).owner = p.owner) ∧
    (p.merge file).valid .owner = (p.valid .owner && p.owner.same file.owner) := by
  unfold merge
  dsimp only
  split <;> split <;> split <;> simp_all [TValidProperties.erase]

theorem merge_group (p : TRemoteProperties) (file : SelectedFile) :
    (p.group.same file.group = true → (p.merge file).group = p.group) ∧
    (p.merge file).valid .group = (p.valid .group && p.group.same file.group) := by
  unfold merge
  dsimp only
  split <;> split <;> split <;> simp_all [TValidProperties.erase]

theorem ofFile_owner (file : SelectedFile) : (ofFile file).valid .owner = file.owner.isSet ∧
    (file.owner.isSet = true → (ofFile file).owner = file.owner) := by
  unfold ofFile
  dsimp only
  split <;> split <;> split <;> simp_all [TValidProperties.insert]

theorem ofFile_group (file : SelectedFile) : (ofFile file).valid .group = file.group.isSet ∧
    (file.group.isSet = true → (ofFile file).group = file.group) := by
  unfold ofFile
  dsimp only
  split <;> split <;> split <;> simp_all [TValidProperties.insert]

/-- The properties that the files of a selection have in common: a right is set or
unset just when it is in every file, and the owner and the group are valid just when all
files have the same one. -/
theorem commonProperties_spec (file : SelectedFile) (files : List SelectedFile) :
    (∀ right,
      ((commonProperties (file :: files)).rights.getRightUndef right = .yes ↔
        ∀ f ∈ file :: files, f.rights.getRightUndef right = .yes) ∧
      ((commonProperties (file :: files)).rights.getRightUndef right = .no ↔
        ∀ f ∈ file :: files, f.rights.getRightUndef right = .no)) ∧
    ((commonProperties (file :: files)).valid .owner = true ↔
      HaveSame SelectedFile.owner (file :: files)) ∧
    ((commonProperties (file :: files)).valid .group = true ↔
      HaveSame SelectedFile.group (file :: files)) := by
  have hright : ∀ right v, v ≠ RightState.undef →
      ((commonProperties (file :: files)).rights.getRightUndef right = v ↔
        ∀ f ∈ file :: files, f.rights.getRightUndef right = v) := by
    intro right v hv
    rw [commonProperties, foldl_merge_right, RightState.foldl_meet hv, ofFile_right,
      List.forall_mem_map, List.forall_mem_cons]
  refine ⟨fun right => ⟨hright right .yes nofun, hright right .no nofun⟩, ?_, ?_⟩
  · exact valid_iff_haveSame SelectedFile.owner_name ofFile_owner (fun p f => (merge_owner p f).1)
      (fun p f => (merge_owner p f).2) file files
  · exact valid_iff_haveSame SelectedFile.group_name ofFile_group (fun p f => (merge_group p f).1)
      (fun p f => (merge_group p f).2) file files

/-- The file of user joe and group staff whose rights a listing gives as a text. -/
def listedFile (text : UnicodeString) : SelectedFile where
  rights := (TRights.ofNumber 0).orSame ((TRights.ofNumber 0).setText text)
  owner := { name := wstr "joe" }
  group := { name := wstr "staff" }
  tags := []
  made := ⟨_, 0, .tail .refl trivial (rfl : RightsOp.step _ (.text 0 text) = _),
    Function.update_self ..⟩
  owner_name := by decide
  group_name := by decide

/-- The owner of two files may write both of them, others none. Only one can be executed. -/
theorem commonProperties_two :
    let common := commonProperties [listedFile (wstr "rw-r--r--"), listedFile (wstr "rwxr-----")]
    common.rights.getRightUndef 4 = .yes ∧ common.rights.getRightUndef 10 = .no ∧
      common.rights.getRightUndef 5 = .undef ∧ common.valid .owner = true := by
  have hspec := commonProperties_spec (listedFile (wstr "rw-r--r--"))
    [listedFile (wstr "rwxr-----")]
  exact ⟨(hspec.1 4).1.mpr (by decide), (hspec.1 10).2.mpr (by decide), by decide +kernel,
    hspec.2.1.mpr ⟨{ name := wstr "joe" }, by decide⟩⟩

end TRemoteProperties

end NetBox.Remote
