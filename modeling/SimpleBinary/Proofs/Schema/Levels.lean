import SimpleBinary.Proofs.Schema.Parts

/-! The messages of an accepted schema, level by level. The fields side by side
in a message or in a group, at any depth, keep the rules of their order and
their kind, and a declared block has room for them. -/
namespace SimpleBinary

/-- The layout behind a field where no block length is declared around it. A
constant takes no room, and behind a group or a field of variable length
nothing has a fixed place. -/
def Layout.past (layout : Layout) (field : Field) : Layout :=
  let arrived := layout.arrived 0 field
  match field.type? with
  | none => { arrived with isVariable := true }
  | some type =>
    if field.isConstant then arrived
    else if type.encodedLength = variableLength then { arrived with isVariable := true }
    else if layout.isVariable then arrived
    else { arrived with offset := arrived.offset + type.encodedLength }

namespace Field

def computedLength (fields : List Field) : Int := (fields.foldl Layout.past {}).offset

theorem past_mapInfo {change : FieldInfo → FieldInfo}
    (hchange : ∀ info, (change info).declared = info.declared) (layout : Layout) (field : Field) :
    layout.past (field.mapInfo change) = layout.past field := by
  have hoffset : (change field.info).declared.offset = field.info.declared.offset := by
    rw [hchange]
  have hpresence : (change field.info).declared.presence = field.info.declared.presence := by
    rw [hchange]
  have htype : (field.mapInfo change).type? = field.type? := by cases field <;> rfl
  have hgroup : (field.mapInfo change).isGroup = field.isGroup := by cases field <;> rfl
  have hvariable : (field.mapInfo change).isVariable = field.isVariable := by cases field <;> rfl
  have harrived : layout.arrived 0 (field.mapInfo change) = layout.arrived 0 field := by
    simp only [Layout.arrived, Layout.moved, info_mapInfo, hgroup, hvariable]
    simp only [FieldInfo.declared] at hoffset
    rw [hoffset]
  have hconstant : (field.mapInfo change).isConstant = field.isConstant := by
    simp only [isConstant, info_mapInfo, htype]
    simp only [FieldInfo.declared] at hpresence
    rw [hpresence]
  simp only [Layout.past, htype, harrived, hconstant]

theorem past_of_placeValue {layout next : Layout} {field placed : Field} {type : DataType}
    (htype : field.type? = some type)
    (h : (field.arrivedAt layout 0).placeValue (layout.arrived 0 field) type = (placed, .ok next)) :
    layout.past field = next := by
  have hconstant : (field.arrivedAt layout 0).isConstant = field.isConstant := by
    cases field <;> rfl
  simp only [Layout.past, htype]
  rw [placeValue, hconstant] at h
  split at h
  · next hfield =>
    cases h
    rw [if_pos hfield]
  · next hfield =>
    rw [if_neg hfield]
    have hafter := (Prod.mk.inj h).2
    unfold Layout.after at hafter
    split at hafter
    · next hvariable =>
      rw [if_pos hvariable]
      exact Except.ok.inj hafter
    · next hvariable =>
      rw [if_neg hvariable]
      split at hafter
      · next hpassed =>
        rw [if_pos (show layout.isVariable = true from hpassed)]
        exact Except.ok.inj hafter
      · next hpassed =>
        rw [if_neg (show ¬ layout.isVariable = true from hpassed)]
        split at hafter
        · exact Except.ok.inj hafter
        · cases hafter

theorem Laid.foldl_past {hint : Int} {layout last : Layout} {fields placed : List Field}
    (h : Laid hint layout fields placed last) (hhint : hint = 0) :
    placed.foldl Layout.past layout = last := by
  induction h with
  | nil => rfl
  | @value hint layout next last field placed type rest placedRest htype hroomy hplaced _ ih =>
    subst hhint
    have hpast := past_of_placeValue htype hplaced
    obtain ⟨change, hchange, rfl⟩ := declared_placeValue hplaced
    rw [List.foldl_cons, past_mapInfo hchange, arrivedAt, past_mapInfo fun _ => by rfl, hpast,
      ih rfl]
  | group _ _ _ _ _ ih =>
    subst hhint
    rw [List.foldl_cons, ← ih rfl]
    rfl

/-- Whether a declared block has room for the fields of a group, and the block
that was computed is the larger of both. -/
def blockFits : Field → Bool
  | .group info _ blockLength fields =>
    (blockLength.toInt = 0 || computedLength fields ≤ blockLength.toInt) &&
      info.computedBlockLength = max blockLength.toInt (computedLength fields)
  | _ => true

theorem Laid.everywhere_blockFits {hint : Int} {layout last : Layout} {fields placed : List Field}
    (h : Laid hint layout fields placed last) : everywhere blockFits placed = true := by
  induction h with
  | nil => rfl
  | @value hint layout next last field placed type rest placedRest htype hroomy hplaced _ ih =>
    obtain ⟨change, -, rfl⟩ := declared_placeValue hplaced
    rw [everywhere, ih, Bool.and_true]
    cases field with
    | plain => rfl
    | group => cases htype
    | data => rfl
  | @group hint layout inside last info dimension blockLength fields inner rest placedRest hroomy
      hlaid hfits _ ihInner ih =>
    have hlength : computedLength inner = inside.offset :=
      congrArg Layout.offset (hlaid.foldl_past rfl)
    rw [everywhere, ih, Bool.and_true]
    simp only [arrivedAt, mapInfo, throughout, blockFits, ihInner, hlength, Bool.and_true,
      Bool.and_eq_true, Bool.or_eq_true, decide_eq_true_eq, and_true]
    by_cases hzero : blockLength.toInt = 0
    · exact .inl hzero
    · exact .inr (hfits hzero)

/-- The fields of a message and, at any depth, those of the groups in it. -/
inductive Level (fields : List Field) : List Field → Prop where
  | top : Level fields fields
  | group {info : FieldInfo} {dimension : DataType} {blockLength : Int32}
      {level inner : List Field} :
      Level fields level → .group info dimension blockLength inner ∈ level → Level fields inner

section
variable {types : Table String DataType} {version : Int32} {fields level : List Field}

theorem Row.of_level (h : Row types version fields) (hlevel : Level fields level) :
    Row types version level := by
  induction hlevel with
  | top => exact h
  | group _ hgroup ih =>
    cases ih.valid _ hgroup with
    | group _ _ _ _ hvalid hsiblings => exact ⟨hvalid, hsiblings⟩

theorem everywhere_level {kind : Field → Bool} (h : everywhere kind fields = true)
    (hlevel : Level fields level) : everywhere kind level = true := by
  induction hlevel with
  | top => exact h
  | group _ hgroup ih =>
    have hthrough := throughout_of_mem ih hgroup
    rw [throughout, Bool.and_eq_true] at hthrough
    exact hthrough.2

end

def NamesValue (types : Table String DataType) (reference : String) : Prop :=
  ∃ enumName valueName info enum, reference = enumName ++ "." ++ valueName ∧
    types.get? enumName = some (.enum info enum) ∧ ∃ value ∈ enum.values, value.name = valueName

end Field

theorem Text.eq_of_dottedName? {text first second : String}
    (h : dottedName? text = some (first, second)) : text = first ++ "." ++ second := by
  unfold dottedName? at h
  dsimp only at h
  split at h
  · cases h
  · next c rest hdrop =>
    have hdot : c = '.' := by
      have hhead := List.head?_dropWhile_not (fun c : Char => decide (c ≠ '.')) text.toList
      rw [hdrop] at hhead
      simpa using hhead
    split at h
    · cases h
      have hchars := List.takeWhile_append_dropWhile (p := fun c : Char => decide (c ≠ '.'))
        (l := text.toList)
      rw [hdrop, hdot] at hchars
      have htext := congrArg String.ofList hchars
      rw [String.ofList_toList] at htext
      refine htext.symm.trans ?_
      rw [String.ofList_append, String.append_assoc]
      simp
    · cases h

theorem Field.RefersTo.namesValue {types : Table String DataType} {reference : String}
    (h : RefersTo types reference) : NamesValue types reference := by
  obtain ⟨enumName, valueName, enum, hreference, henum, hvalue⟩ := h
  obtain ⟨type, htype, henum⟩ := Option.bind_eq_some_iff.mp henum
  obtain ⟨value, hvalue⟩ := Option.isSome_iff_exists.mp hvalue
  obtain ⟨info, rfl⟩ := DataType.exists_of_enum? henum
  refine ⟨enumName, valueName, info, enum, Text.eq_of_dottedName? hreference, htype, value, ?_, ?_⟩
  · exact List.mem_of_find?_eq_some hvalue
  · simpa using List.find?_some hvalue

namespace DataType
variable {members : List DataType} {name : String}

theorem member?_freed (members : List DataType) (name : String) :
    member? (members.map freed) name = (member? members name).map freed := by
  have hname : (fun member : DataType => decide (member.name = name)) ∘ freed =
      fun member => decide (member.name = name) := by
    funext member
    exact decide_eq_decide.mpr (by rw [DataType.name, info_freed, DataType.name])
  rw [member?, List.find?_map, hname, member?]

theorem Measures.freed (h : Measures members "length") :
    Measures (members.map DataType.freed) "length" := by
  obtain ⟨type, htype, hunsigned⟩ := h
  refine ⟨type, ?_, hunsigned⟩
  rw [encodedMember?] at htype ⊢
  obtain ⟨member, hmember, hencoded⟩ := Option.bind_eq_some_iff.mp htype
  have hname : member.name = "length" := by simpa using List.find?_some hmember
  rw [member?_freed, hmember, Option.map_some, Option.bind_some]
  obtain ⟨info, rfl⟩ := exists_of_encoded? hencoded
  have hother : info.name ≠ "varData" := by
    intro h
    rw [DataType.name, DataType.info, h] at hname
    exact absurd hname (by decide)
  rw [DataType.freed, if_neg hother, hencoded]

theorem isVariable_content (h : (encodedMember? members "varData").isSome = true) :
    ∃ content, encodedMember? (members.map freed) "varData" = some content ∧
      content.isVariable = true := by
  obtain ⟨type, htype⟩ := Option.isSome_iff_exists.mp h
  obtain ⟨member, hmember, hencoded⟩ := Option.bind_eq_some_iff.mp htype
  have hname : member.name = "varData" := by simpa using List.find?_some hmember
  rw [encodedMember?, member?_freed, hmember, Option.map_some, Option.bind_some]
  obtain ⟨info, rfl⟩ := exists_of_encoded? hencoded
  rw [freed, if_pos (show info.name = "varData" from hname)]
  exact ⟨_, rfl, rfl⟩

end DataType

namespace Field

def Sound (types : Table String DataType) : Field → Prop
  | .plain info _ => ∀ reference ∈ info.valueRef, NamesValue types reference
  | .group info dimension blockLength fields =>
    (∃ members, dimension.composite? = some members ∧
        DataType.Measures members "blockLength" ∧ DataType.Measures members "numInGroup") ∧
      (blockLength.toInt = 0 ∨ computedLength fields ≤ blockLength.toInt) ∧
      info.computedBlockLength = max blockLength.toInt (computedLength fields)
  | .data _ type =>
    -- the type of the name, but for the content, which is set free
    ∃ (named : TypeInfo) (members : List DataType),
      types.get? named.name = some (.composite named members) ∧
      type = .composite named (members.map DataType.freed) ∧
      DataType.Measures (members.map DataType.freed) "length" ∧
      ∃ content, DataType.encodedMember? (members.map DataType.freed) "varData" = some content ∧
        content.isVariable = true

theorem Valid.sound {types : Table String DataType} {version : Int32} {field : Field}
    (h : field.Valid types version) (hblock : field.blockFits = true) : field.Sound types := by
  cases h with
  | plain _ _ hrefers => exact fun reference hreference => (hrefers reference hreference).namesValue
  | @group _ _ members _ _ _ _ hlength hcount _ _ =>
    simp only [blockFits, Bool.and_eq_true, Bool.or_eq_true, decide_eq_true_eq] at hblock
    exact ⟨⟨members, rfl, hlength, hcount⟩, hblock⟩
  | @data _ named members _ _ hknown hlength hdata =>
    exact ⟨named, members, hknown, DataType.asVarData_composite named members, hlength.freed,
      DataType.isVariable_content hdata⟩

structure SoundLevel (schema : Schema) (level : List Field) : Prop where
  ordered : level.Pairwise fun a b => a.rank ≤ b.rank
  names : level.Pairwise fun a b => a.name ≠ b.name
  identities : level.Pairwise fun a b => a.info.id ≠ invalidId → a.info.id ≠ b.info.id
  named : ∀ field ∈ level, Text.IsIdentifier field.name
  versions : ∀ field ∈ level, field.info.sinceVersion.toInt ≤ schema.version.toInt
  sound : ∀ field ∈ level, field.Sound schema.types

theorem Row.soundLevel {schema : Schema} {level : List Field}
    (h : Row schema.types schema.version level) (hblocks : everywhere blockFits level = true) :
    SoundLevel schema level where
  ordered := (List.pairwise_map.mp h.siblings).imp fun hpair => hpair.1
  names := (List.pairwise_map.mp h.siblings).imp fun hpair => hpair.2.1
  identities := (List.pairwise_map.mp h.siblings).imp fun hpair => hpair.2.2
  named field hfield := Text.isName_iff.mp (h.valid field hfield).info.name
  versions field hfield := by
    have hversion := (h.valid field hfield).info.sinceVersion
    rwa [Int32.lt_iff_toInt_lt, Int.not_lt] at hversion
  sound field hfield := by
    apply (h.valid field hfield).sound
    have hthrough := throughout_of_mem hblocks hfield
    cases field with
    | plain => rfl
    | group => exact (Bool.and_eq_true_iff.mp hthrough).1
    | data => rfl

end Field

namespace Schema

/-- The header of an accepted document has its members, every message stands
under its own identity, and the fields of each keep the rules at every depth. -/
theorem sound_messages_of_parse {document : String} {policy : Policy} {schema : Schema}
    (h : parse document policy = .ok schema) :
    (∃ members, schema.header? = some members ∧ IsHeader members) ∧
      ∀ entry ∈ schema.messages.entries, entry.1 = entry.2.id ∧
        ∀ level : List Field, Field.Level entry.2.fields level → Field.SoundLevel schema level := by
  have hvalid := valid_of_parse h
  refine ⟨hvalid.header, fun entry hentry => ?_⟩
  obtain ⟨hid, declared, hdeclared, harranged⟩ := hvalid.messages entry hentry
  obtain ⟨last, hlaid⟩ := harranged.laid
  refine ⟨hid, fun level hlevel => ?_⟩
  apply Field.Row.soundLevel
  · exact (harranged.valid hdeclared).row.of_level hlevel
  · exact Field.everywhere_level hlaid.everywhere_blockFits hlevel

theorem sound_messages_layered :
    ∃ schema, parse layered {} = .ok schema ∧ schema.extent = (6, [3]) ∧
      (∃ members, schema.header? = some members ∧ IsHeader members) ∧
      ∀ entry ∈ schema.messages.entries, entry.1 = entry.2.id ∧
        ∀ level : List Field, Field.Level entry.2.fields level → Field.SoundLevel schema level := by
  obtain ⟨schema, hparse, hextent⟩ := parse_layered
  exact ⟨schema, hparse, hextent, sound_messages_of_parse hparse⟩

end Schema
end SimpleBinary
