import SimpleBinary.Proofs.Schema.Levels

/-! Fields that stand. A list that was laid out says by itself where its fields
have arrived, without what they were before, and so does every group in it. -/
namespace SimpleBinary

@[simp] theorem Layout.offset_arrived (layout : Layout) (hint : Int) (field : Field) :
    (layout.arrived hint field).offset = layout.moved hint field := rfl

@[simp] theorem Layout.isVariable_arrived (layout : Layout) (hint : Int) (field : Field) :
    (layout.arrived hint field).isVariable = layout.isVariable := rfl

def Layout.behind (layout : Layout) (field : Field) (type : DataType) : Layout :=
  if field.isConstant then layout
  else if type.encodedLength = variableLength then { layout with isVariable := true }
  else if layout.isVariable then layout
  else { layout with offset := layout.offset + type.encodedLength }

def Layout.offsetOf (layout : Layout) (hint : Int) (field : Field) : Int :=
  if layout.isVariable then variableLength else layout.moved hint field

namespace Field

/-- Fields that stand where a layout puts them, without what they were before. -/
inductive Settled : (hint : Int) → Layout → List Field → Layout → Prop where
  | nil {hint : Int} {layout : Layout} : Settled hint layout [] layout
  | value {hint : Int} {layout last : Layout} {field : Field} {type : DataType}
      {rest : List Field} :
      field.type? = some type → layout.Roomy field →
      field.info.computedOffset = layout.offsetOf hint field →
      Settled hint ((layout.arrived hint field).behind field type) rest last →
      Settled hint layout (field :: rest) last
  | group {hint : Int} {layout inside last : Layout} {info : FieldInfo} {dimension : DataType}
      {blockLength : Int32} {inner rest : List Field} :
      layout.Roomy (.group info dimension blockLength inner) →
      info.computedOffset = layout.offsetOf hint (.group info dimension blockLength inner) →
      Settled 0 {} inner inside →
      (blockLength.toInt ≠ 0 → inside.offset ≤ blockLength.toInt) →
      info.computedBlockLength = max blockLength.toInt inside.offset →
      Settled hint { layout.arrived hint (.group info dimension blockLength inner) with
        isVariable := true } rest last →
      Settled hint layout (.group info dimension blockLength inner :: rest) last

theorem behind_of_placeValue {field placed : Field} {layout next : Layout} {type : DataType}
    (h : field.placeValue layout type = (placed, .ok next)) :
    (∃ length, placed = field.mapInfo fun info => { info with computedBlockLength := length }) ∧
      next = layout.behind field type := by
  have hid : field = field.mapInfo fun info =>
      { info with computedBlockLength := field.info.computedBlockLength } := by cases field <;> rfl
  unfold placeValue at h
  unfold Layout.behind
  split at h
  · next hconstant =>
    cases h
    rw [if_pos hconstant]
    exact ⟨⟨_, hid⟩, rfl⟩
  · next hconstant =>
    obtain ⟨rfl, hafter⟩ := Prod.mk.inj h
    rw [if_neg hconstant]
    unfold Layout.after at hafter
    split at hafter
    · next hsize =>
      refine ⟨⟨field.info.computedBlockLength, ?_⟩, ?_⟩
      · simp only [hsize, if_true]
        cases field <;> rfl
      · rw [if_pos hsize]
        exact (Except.ok.inj hafter).symm
    · next hsize =>
      refine ⟨⟨type.encodedLength, by simp only [hsize, if_false]⟩, ?_⟩
      rw [if_neg hsize]
      split at hafter
      · next hvariable =>
        rw [if_pos hvariable]
        exact (Except.ok.inj hafter).symm
      · next hvariable =>
        rw [if_neg hvariable]
        split at hafter
        · exact (Except.ok.inj hafter).symm
        · cases hafter

theorem Laid.settled {hint : Int} {layout last : Layout} {fields placed : List Field}
    (h : Laid hint layout fields placed last) : Settled hint layout placed last := by
  induction h with
  | nil => exact .nil
  | @value hint layout next last field placed type rest placedRest htype hroomy hplaced _ ih =>
    obtain ⟨⟨length, rfl⟩, rfl⟩ := behind_of_placeValue hplaced
    cases field with
    | group => cases htype
    | plain => exact .value htype hroomy rfl ih
    | data => exact .value htype hroomy rfl ih
  | group hroomy _ hfits _ ihInner ih => exact .group hroomy rfl ihInner hfits rfl ih

section
variable {hint : Int} {layout last : Layout} {fields level : List Field}

/-- A group stands in its list as its own fields do in the group. -/
theorem Settled.group_of_mem (h : Settled hint layout fields last) {info : FieldInfo}
    {dimension : DataType} {blockLength : Int32} {inner : List Field}
    (hgroup : .group info dimension blockLength inner ∈ fields) :
    ∃ inside, Settled 0 {} inner inside ∧
      (blockLength.toInt ≠ 0 → inside.offset ≤ blockLength.toInt) ∧
      info.computedBlockLength = max blockLength.toInt inside.offset := by
  induction h with
  | nil => cases hgroup
  | value htype _ _ _ ih =>
    rcases List.mem_cons.mp hgroup with rfl | hgroup
    · cases htype
    · exact ih hgroup
  | group _ _ hinner hfits hlength _ _ ih =>
    rcases List.mem_cons.mp hgroup with heq | hgroup
    · cases heq
      exact ⟨_, hinner, hfits, hlength⟩
    · exact ih hgroup

theorem Settled.of_level (h : Settled hint layout fields last) (hlevel : Level fields level) :
    ∃ hint layout last, Settled hint layout level last := by
  induction hlevel with
  | top => exact ⟨hint, layout, last, h⟩
  | group _ hgroup ih =>
    obtain ⟨_, _, _, hsettled⟩ := ih
    obtain ⟨inside, hinner, -⟩ := hsettled.group_of_mem hgroup
    exact ⟨0, {}, inside, hinner⟩

end

/-- Without a hint to go by, or for a field that takes none, nothing moves back. -/
theorem le_moved {hint : Int} {layout : Layout} {field : Field} (hroomy : layout.Roomy field)
    (hhint : hint = 0 ∨ field.info.offset ≠ 0 ∨ (field.isGroup || field.isVariable) = false) :
    layout.offset ≤ layout.moved hint field := by
  unfold Layout.moved
  split
  · exact Int.le_refl _
  · split
    · next hdeclared => exact hroomy hdeclared
    · next hnone =>
      split
      · next hmoves =>
        rcases hhint with hhint | hdeclared | hkind
        · simp [hhint] at hmoves
        · exact absurd hdeclared hnone
        · simp [hkind] at hmoves
      · exact Int.le_refl _

section
variable {types : Table String DataType} {version : Int32}

theorem Row.append_right {first rest : List Field} (h : Row types version (first ++ rest)) :
    Row types version rest where
  valid field hfield := h.valid field (List.mem_append_right _ hfield)
  siblings := by
    have hsiblings := h.siblings
    unfold Siblings at hsiblings ⊢
    rw [List.map_append] at hsiblings
    exact (List.pairwise_append.mp hsiblings).2.1

theorem Row.tail {field : Field} {rest : List Field} (h : Row types version (field :: rest)) :
    Row types version rest :=
  Row.append_right (show Row types version ([field] ++ rest) from h)

end
end Field

namespace Schema

theorem Valid.settled {schema : Schema} {message : Message} (h : schema.Valid)
    (hmessage : message ∈ schema.messages.values) :
    ∃ last, Field.Settled message.declaredBlockLength.toInt {} message.fields last ∧
      message.blockLength =
        max message.declaredBlockLength.toInt (Field.fixedLength 0 message.fields) ∧
      (message.declaredBlockLength.toInt ≠ 0 →
        Field.fixedLength 0 message.fields ≤ message.declaredBlockLength.toInt) := by
  obtain ⟨entry, hentry, rfl⟩ := List.mem_map.mp hmessage
  obtain ⟨-, declared, -, harranged⟩ := h.messages entry hentry
  obtain ⟨last, hlaid⟩ := harranged.laid
  have hcomputed : entry.2.computedBlockLength = Field.fixedLength 0 entry.2.fields := by
    rw [harranged.same]
  have hdeclared : declared.declaredBlockLength = entry.2.declaredBlockLength := by
    rw [harranged.same]
  have hblock := harranged.block
  rw [hdeclared] at hlaid hblock
  rw [hcomputed] at hblock
  exact ⟨last, hlaid.settled, by rw [Message.blockLength, hcomputed], hblock⟩

end Schema
end SimpleBinary
