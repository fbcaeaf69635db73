import SimpleBinary.Proofs.Schema.Places

/-! Simple messages: plain fields of fixed length, dimensions made of single
numbers, and data behind a single number. Every number that a walk is steered
by has a place, a width and no sign. -/
namespace SimpleBinary

namespace DataType

def isSingle : DataType → Bool
  | .encoded info type => info.presence ≠ .constant && type.length = 1
  | _ => false

def memberAt? (name : String) (offset : Int) : List DataType → Option (Int × DataType)
  | [] => none
  | member :: rest =>
    if member.name = name then some (member.start offset, member)
    else memberAt? name (member.start offset + member.encodedLength) rest

variable {members : List DataType} {name : String} {offset place : Int} {member : DataType}

theorem member?_of_memberAt? (h : memberAt? name offset members = some (place, member)) :
    member? members name = some member := by
  induction members generalizing offset with
  | nil => cases h
  | cons first rest ih =>
    unfold member? at ih ⊢
    rw [memberAt?] at h
    split at h
    · next hname =>
      cases h
      rw [List.find?_cons_of_pos (by simp [hname])]
    · next hname =>
      rw [List.find?_cons_of_neg (by simp [hname])]
      exact ih h

theorem isPlace_of_memberAt? (hvalid : ∀ member ∈ members, member.Valid)
    (hfixed : ∀ member ∈ members, member.isVariable = false) (hspaced : Spaced offset members)
    (hoffset : IsPlace offset) (h : memberAt? name offset members = some (place, member)) :
    IsPlace place := by
  induction members generalizing offset with
  | nil => cases h
  | cons first rest ih =>
    obtain ⟨hstart, hend, hrest⟩ := hspaced.place (hvalid first List.mem_cons_self)
      (hfixed first List.mem_cons_self) hoffset
    rw [memberAt?] at h
    split at h
    · cases h
      exact hstart
    · exact ih (fun other hother => hvalid other (List.mem_cons_of_mem _ hother))
        (fun other hother => hfixed other (List.mem_cons_of_mem _ hother)) hrest hend h

theorem Measures.isUnsigned {info : TypeInfo} {type : EncodedType} (h : Measures members name)
    (hat : memberAt? name offset members = some (place, .encoded info type)) :
    type.primitive.isUnsigned = true := by
  obtain ⟨other, hother, hunsigned⟩ := h
  rw [encodedMember?, member?_of_memberAt? hat] at hother
  cases hother
  exact hunsigned

/-- An unsigned number of one element, named and placed as a length in front
of a content. -/
structure Frames (lengthInfo : TypeInfo) (length : EncodedType) (contentInfo : TypeInfo) :
    Prop where
  lengthName : lengthInfo.name = "length"
  lengthOffset : lengthInfo.offset = none
  single : (encoded lengthInfo length).isSingle = true
  unsigned : length.primitive.isUnsigned = true
  contentName : contentInfo.name = "varData"
  contentOffset : contentInfo.offset = none

namespace Frames
variable {lengthInfo contentInfo : TypeInfo} {length : EncodedType}

theorem memberAt?_length (h : Frames lengthInfo length contentInfo) (rest : List DataType) :
    memberAt? "length" 0 (.encoded lengthInfo length :: rest) =
      some (0, .encoded lengthInfo length) := by
  have hname : (DataType.encoded lengthInfo length).name = "length" := h.lengthName
  have hstart : (DataType.encoded lengthInfo length).start 0 = 0 := start_of_none 0 h.lengthOffset
  rw [memberAt?, if_pos hname, hstart]

theorem memberAt?_content (h : Frames lengthInfo length contentInfo) (content : EncodedType)
    (rest : List DataType) :
    memberAt? "varData" 0 (.encoded lengthInfo length :: .encoded contentInfo content :: rest) =
      some ((encoded lengthInfo length).encodedLength, .encoded contentInfo content) := by
  have hother : (DataType.encoded lengthInfo length).name ≠ "varData" := by
    change lengthInfo.name ≠ "varData"
    rw [h.lengthName]
    decide
  have hname : (DataType.encoded contentInfo content).name = "varData" := h.contentName
  have hstart : (DataType.encoded lengthInfo length).start 0 = 0 := start_of_none 0 h.lengthOffset
  have hnext : ∀ offset, (DataType.encoded contentInfo content).start offset = offset :=
    fun offset => start_of_none offset h.contentOffset
  rw [memberAt?, if_neg hother, memberAt?, if_pos hname, hstart, hnext, Int.zero_add]

theorem encodedLength (h : Frames lengthInfo length contentInfo) :
    (DataType.encoded lengthInfo length).encodedLength =
      if length.isVariable then variableLength else length.primitive.size := by
  have hsingle := h.single
  have hsize := length.primitive.isPlace_size
  simp only [isSingle, Bool.and_eq_true, decide_eq_true_eq] at hsingle
  have harray : arraySize length = length.primitive.size := by
    unfold IsPlace at hsize
    rw [arraySize, hsingle.2]
    change max (-2147483648) (min 2147483647 ((length.primitive.size : Int) * 1)) = _
    omega
  rw [DataType.encodedLength, if_neg hsingle.1, harray]

end Frames

end DataType

namespace Field

def isPlain : Field → Bool
  | .plain .. => true
  | _ => false

/-- Plain fields have a fixed length, dimensions are made of single numbers,
and data is a single number `length` followed by `varData`. -/
def isSimple : Field → Bool
  | .plain _ type => !type.isVariable
  | .group _ (.composite _ members) _ _ =>
    members.all fun member => member.isSingle && !member.isVariable
  | .data _ (.composite _ [length, content]) =>
    length.isSingle && length.name = "length" && length.info.offset.isNone &&
      content.encoded?.isSome && content.name = "varData" && content.info.offset.isNone
  | _ => false

def hasFixedLength : Field → Bool
  | .data _ (.composite _ (length :: _)) => !length.isVariable
  | _ => true

def isReady (field : Field) : Bool :=
  field.isSimple && field.hasFixedLength && field.hasPlace

/-- A field that keeps every rule and that a walk can rely on, at every depth. -/
def Ready (types : Table String DataType) (version : Int32) (field : Field) : Prop :=
  field.Valid types version ∧ field.throughout isReady = true

variable {types : Table String DataType} {version : Int32} {kind : Field → Bool}
  {fields : List Field}

theorem isPlain_of_rank {field : Field} (h : 1 ≤ field.rank) : field.isPlain = false := by
  cases field with
  | plain => cases h
  | group => rfl
  | data => rfl

theorem isGroup_of_rank {field : Field} (h : 2 ≤ field.rank) : field.isGroup = false := by
  cases field with
  | plain => rfl
  | group => simp [rank] at h
  | data => rfl

theorem Siblings.eq_append (h : Siblings fields) :
    fields = fields.filter isPlain ++ (fields.filter isGroup ++ fields.filter isData) := by
  have hnone : ∀ {kind : Field → Bool} {rest : List Field},
      (∀ other ∈ rest, kind other = false) → rest.filter kind = [] := by
    intro kind rest hkind
    rw [List.filter_eq_nil_iff]
    intro other hother
    simp [hkind other hother]
  induction fields with
  | nil => rfl
  | cons field rest ih =>
    have hrest := ih h.tail
    cases field with
    | plain info type =>
      simp only [List.filter_cons, isPlain, isGroup, isData, if_true, Bool.false_eq_true, if_false,
        List.cons_append]
      rw [← hrest]
    | group info dimension blockLength inner =>
      have hplain : rest.filter isPlain = [] :=
        hnone fun other hother => isPlain_of_rank (rank_le_of_siblings h hother)
      rw [hplain, List.nil_append] at hrest
      simp only [List.filter_cons, isPlain, isGroup, isData, if_true, Bool.false_eq_true, if_false,
        hplain, List.nil_append, List.cons_append]
      rw [← hrest]
    | data info type =>
      have hrank : ∀ other ∈ rest, 2 ≤ other.rank := fun other => rank_le_of_siblings h
      have hplain : rest.filter isPlain = [] :=
        hnone fun other hother => isPlain_of_rank (Nat.le_of_succ_le (hrank other hother))
      have hgroup : rest.filter isGroup = [] :=
        hnone fun other hother => isGroup_of_rank (hrank other hother)
      rw [hplain, hgroup, List.nil_append, List.nil_append] at hrest
      simp only [List.filter_cons, isPlain, isGroup, isData, if_true, Bool.false_eq_true, if_false,
        hplain, hgroup, List.nil_append]
      rw [← hrest]

theorem Ready.plain {info : FieldInfo} {type : DataType}
    (h : Ready types version (.plain info type)) :
    type.Valid ∧ type.isVariable = false ∧ IsPlace info.computedOffset := by
  obtain ⟨hvalid, hready⟩ := h
  cases hvalid with
  | plain _ htype _ =>
    simpa [throughout, isReady, isSimple, hasFixedLength, hasPlace, htype] using hready

/-- The dimension of a group is made of numbers, and what is inside it is ready
as well. -/
theorem Ready.group {info : FieldInfo} {dimension : DataType} {blockLength : Int32}
    (h : Ready types version (.group info dimension blockLength fields)) :
    ∃ name members, dimension = .composite name members ∧ dimension.Valid ∧
      (∀ member ∈ members, member.isSingle = true ∧ member.isVariable = false) ∧
      DataType.Measures members "blockLength" ∧ DataType.Measures members "numInGroup" ∧
      (∀ field ∈ fields, Ready types version field) ∧ Siblings fields := by
  obtain ⟨hvalid, hready⟩ := h
  cases hvalid with
  | @group _ name members _ _ _ hdimension hlength hcount hfields hsiblings =>
    rw [throughout, Bool.and_eq_true] at hready
    refine ⟨name, members, rfl, hdimension, ?_, hlength, hcount,
      fun field hfield => ⟨hfields field hfield, throughout_of_mem hready.2 hfield⟩, hsiblings⟩
    simpa [isReady, isSimple, hasFixedLength, hasPlace] using hready.1

theorem Valid.data_of_isSimple {info : FieldInfo} {type : DataType}
    (hvalid : (Field.data info type).Valid types version)
    (hsimple : isSimple (.data info type) = true) :
    ∃ name lengthInfo length contentInfo content,
      type = .composite name [.encoded lengthInfo length, .encoded contentInfo content] ∧
      DataType.Frames lengthInfo length contentInfo := by
  cases hvalid with
  | @data _ name members _ _ _ hmeasures _ =>
    rw [DataType.asVarData_composite] at hsimple ⊢
    obtain ⟨measure, hmeasure, hunsigned⟩ := hmeasures
    rcases members with _ | ⟨first, _ | ⟨second, _ | ⟨third, rest⟩⟩⟩
    · cases hsimple
    · cases hsimple
    · simp only [List.map_cons, List.map_nil, isSimple, DataType.name, DataType.info_freed,
        Bool.and_eq_true, decide_eq_true_eq, Option.isNone_iff_eq_none] at hsimple
      obtain ⟨⟨⟨⟨⟨hsingle, hname⟩, hoffset⟩, hencoded⟩, hcontent⟩, hplace⟩ := hsimple
      cases first with
      | composite => cases hsingle
      | enum => cases hsingle
      | set => cases hsingle
      | encoded lengthInfo length =>
        have hlength : lengthInfo.name = "length" := hname
        have hkept : (DataType.encoded lengthInfo length).freed = .encoded lengthInfo length := by
          rw [DataType.freed, if_neg (by rw [hlength]; decide)]
        have hfound : DataType.member? [.encoded lengthInfo length, second] "length" =
            some (.encoded lengthInfo length) :=
          List.find?_cons_of_pos (decide_eq_true hname)
        rw [DataType.encodedMember?, hfound] at hmeasure
        obtain rfl : measure = length := (Option.some.inj hmeasure).symm
        rw [hkept] at hsingle
        cases hsecond : second.freed with
        | encoded contentInfo content =>
          have hinfo : second.info = contentInfo := by
            rw [← DataType.info_freed, hsecond]
            rfl
          refine ⟨name, lengthInfo, measure, contentInfo, content, ?_, hlength, hoffset, hsingle,
            hunsigned, hinfo ▸ hcontent, hinfo ▸ hplace⟩
          rw [List.map_cons, List.map_cons, List.map_nil, hkept, hsecond]
        | composite =>
          rw [hsecond] at hencoded
          cases hencoded
        | enum =>
          rw [hsecond] at hencoded
          cases hencoded
        | set =>
          rw [hsecond] at hencoded
          cases hencoded
    · cases hsimple

theorem Ready.data {info : FieldInfo} {type : DataType}
    (h : Ready types version (.data info type)) :
    ∃ name lengthInfo length contentInfo content,
      type = .composite name [.encoded lengthInfo length, .encoded contentInfo content] ∧
      DataType.Frames lengthInfo length contentInfo ∧ length.isVariable = false := by
  obtain ⟨hvalid, hready⟩ := h
  rw [throughout, isReady, Bool.and_eq_true, Bool.and_eq_true] at hready
  obtain ⟨⟨hsimple, hfixed⟩, -⟩ := hready
  obtain ⟨name, lengthInfo, length, contentInfo, content, rfl, hframes⟩ :=
    hvalid.data_of_isSimple hsimple
  refine ⟨name, lengthInfo, length, contentInfo, content, rfl, hframes, ?_⟩
  simpa [hasFixedLength, DataType.isVariable] using hfixed

end Field
end SimpleBinary
