import SimpleBinary.Proofs.Schema.Settled

/-! The blocks of messages and groups. Their fixed fields stand one behind the
other and end inside the block; only some constants of variable length make an
exception in a message. -/
namespace SimpleBinary

def Ascending (low high : Int) : List (Int × Int) → Prop
  | [] => low ≤ high
  | span :: rest => low ≤ span.1 ∧ span.1 ≤ span.2 ∧ Ascending span.2 high rest

namespace Ascending
variable {low high : Int} {spans : List (Int × Int)}

@[simp] theorem nil_iff : Ascending low high [] ↔ low ≤ high := Iff.rfl

@[simp] theorem cons_iff {span : Int × Int} : Ascending low high (span :: spans) ↔
    low ≤ span.1 ∧ span.1 ≤ span.2 ∧ Ascending span.2 high spans := Iff.rfl

theorem lower {below : Int} (h : Ascending low high spans) (hle : below ≤ low) :
    Ascending below high spans := by
  cases spans with
  | nil => exact Int.le_trans hle h
  | cons span rest => exact ⟨Int.le_trans hle h.1, h.2⟩

theorem append {middle : Int} {others : List (Int × Int)} (h : Ascending low middle spans)
    (hothers : Ascending middle high others) : Ascending low high (spans ++ others) := by
  induction spans generalizing low with
  | nil => exact hothers.lower h
  | cons span rest ih => exact ⟨h.1, h.2.1, ih h.2.2⟩

theorem le (h : Ascending low high spans) : low ≤ high := by
  induction spans generalizing low with
  | nil => exact h
  | cons span rest ih =>
    have hrest := ih h.2.2
    obtain ⟨hlow, hspan, -⟩ := h
    omega

theorem inside (h : Ascending low high spans) : ∀ span ∈ spans, low ≤ span.1 ∧ span.2 ≤ high := by
  induction spans generalizing low with
  | nil => simp
  | cons first rest ih =>
    obtain ⟨hlow, hfirst, hrest⟩ := h
    intro span hspan
    rcases List.mem_cons.mp hspan with rfl | hspan
    · exact ⟨hlow, hrest.le⟩
    · have hinside := ih hrest span hspan
      omega

theorem pairwise (h : Ascending low high spans) : spans.Pairwise fun a b => a.2 ≤ b.1 := by
  induction spans generalizing low with
  | nil => exact .nil
  | cons first rest ih =>
    obtain ⟨hlow, hfirst, hrest⟩ := h
    apply List.Pairwise.cons
    · exact fun other hother => (hrest.inside other hother).1
    · exact ih hrest

end Ascending

namespace DataType

theorem membersLength_of_anyVariable {members : List DataType} (h : anyVariable members = true)
    (length : Int) : membersLength length members = variableLength := by
  induction members generalizing length with
  | nil => simp [anyVariable] at h
  | cons member rest ih =>
    cases hmember : member.isVariable with
    | true => rw [membersLength, if_pos hmember]
    | false =>
      rw [anyVariable, hmember, Bool.false_or] at h
      rw [membersLength_cons hmember]
      exact ih h _

/-- Only a constant can be of variable length and take no room. -/
theorem encodedLength_of_isVariable {type : DataType} (h : type.isVariable = true)
    (hconstant : type.isConstant = false) : type.encodedLength = variableLength := by
  cases type with
  | encoded info type =>
    have hpresence : info.presence ≠ .constant := of_decide_eq_false hconstant
    have hfree : type.isVariable = true := by simpa [isVariable] using h
    rw [encodedLength, if_neg hpresence, if_pos hfree]
  | composite info members =>
    rw [isVariable] at h
    rw [encodedLength, membersLength_of_anyVariable h]
  | enum => simp [isVariable] at h
  | set => simp [isVariable] at h

end DataType

namespace Field

/-- The bytes of a fixed plain field in its block: from its offset to its end.
Constants take none, and neither do fields without an offset or a length. -/
def span? : Field → Option (Int × Int)
  | .plain info type =>
    if (Field.plain info type).isConstant ∨ type.encodedLength = variableLength ∨
        info.computedOffset < 0 then none
    else some (info.computedOffset, info.computedOffset + type.encodedLength)
  | _ => none

/-- A constant plain field of variable length that parts the two passes over a
message: where its type has a length, the first pass may move it to the declared
end of the block like a field of variable length; where it has none, the second
pass stops at it. -/
def isLooseConstant (hint : Int) : Field → Bool
  | .plain info type =>
    (Field.plain info type).isConstant && type.isVariable &&
      (type.encodedLength = variableLength || hint ≠ 0 && info.offset = 0)
  | _ => false

section
variable {types : Table String DataType} {version : Int32}

theorem Valid.encodedLength_data {info : FieldInfo} {type : DataType}
    (h : (Field.data info type).Valid types version) : type.encodedLength = variableLength := by
  cases h with
  | @data _ named members _ _ _ _ hdata =>
    obtain ⟨content, hcontent, hfree⟩ := DataType.isVariable_content hdata
    obtain ⟨member, hmember, hencoded⟩ := Option.bind_eq_some_iff.mp hcontent
    have hvariable : member.isVariable = true := by
      obtain ⟨_, rfl⟩ := DataType.exists_of_encoded? hencoded
      simpa [DataType.isVariable] using hfree
    rw [DataType.asVarData_composite, DataType.encodedLength]
    apply DataType.membersLength_of_anyVariable
    rw [DataType.anyVariable_eq_any, List.any_eq_true]
    exact ⟨member, List.mem_of_find?_eq_some hmember, hvariable⟩

theorem Valid.encodedLength_ne {field : Field} {type : DataType} (h : field.Valid types version)
    (htype : field.type? = some type) (hfixed : field.isVariable = false) :
    type.encodedLength ≠ variableLength := by
  cases h with
  | plain _ hvalid _ =>
    cases htype
    have hplace := hvalid.isPlace_encodedLength hfixed
    unfold variableLength
    unfold IsPlace at hplace
    omega
  | group => cases htype
  | data => cases hfixed

theorem isVariable_eq_false {info : FieldInfo} {type : DataType}
    (hconstant : (Field.plain info type).isConstant = false)
    (hsize : type.encodedLength ≠ variableLength) : type.isVariable = false := by
  rw [← Bool.not_eq_true]
  intro hvariable
  rw [isConstant, Bool.or_eq_false_iff] at hconstant
  exact hsize (DataType.encodedLength_of_isVariable hvariable hconstant.2)

theorem Valid.isPlace_encodedLength {field : Field} {type : DataType}
    (h : field.Valid types version) (htype : field.type? = some type)
    (hconstant : field.isConstant = false) (hsize : type.encodedLength ≠ variableLength) :
    IsPlace type.encodedLength := by
  cases h with
  | plain _ hvalid _ =>
    cases htype
    exact hvalid.isPlace_encodedLength (isVariable_eq_false hconstant hsize)
  | group => cases htype
  | data hinfo hvalid hknown hlength hdata =>
    cases htype
    exact absurd (Valid.data hinfo hvalid hknown hlength hdata).encodedLength_data hsize

theorem Valid.span?_eq {field : Field} {type : DataType} (h : field.Valid types version)
    (htype : field.type? = some type) :
    field.span? = if field.isConstant ∨ type.encodedLength = variableLength ∨
        field.info.computedOffset < 0 then none
      else some (field.info.computedOffset, field.info.computedOffset + type.encodedLength) := by
  cases h with
  | plain =>
    cases htype
    rfl
  | group => cases htype
  | data hinfo hmembers hknown hlength hdata =>
    have hsize := (Valid.data hinfo hmembers hknown hlength hdata).encodedLength_data
    cases htype
    rw [if_pos (.inr (.inl hsize))]
    rfl

theorem ascending_span {hint : Int} {layout : Layout} {field : Field} {type : DataType}
    (hvalid : field.Valid types version) (htype : field.type? = some type)
    (hmoved : layout.offset ≤ layout.moved hint field)
    (hoffset : field.info.computedOffset = layout.offsetOf hint field) :
    Ascending layout.offset ((layout.arrived hint field).behind field type).offset
      field.span?.toList := by
  rw [hvalid.span?_eq htype]
  unfold Layout.behind
  cases hconstant : field.isConstant with
  | true => simpa using hmoved
  | false =>
    by_cases hsize : type.encodedLength = variableLength
    · simpa [hsize] using hmoved
    · have hplace := hvalid.isPlace_encodedLength htype hconstant hsize
      unfold IsPlace at hplace
      cases hvariable : layout.isVariable with
      | true =>
        have hnone : field.info.computedOffset < 0 := by
          simp [hoffset, Layout.offsetOf, hvariable, variableLength]
        simpa [hnone, hsize, hvariable] using hmoved
      | false =>
        have hstart : field.info.computedOffset = layout.moved hint field := by
          simp [hoffset, Layout.offsetOf, hvariable]
        rw [hstart]
        by_cases hnegative : layout.moved hint field < 0
        · have hend : layout.offset ≤ layout.moved hint field + type.encodedLength := by omega
          simpa [hnegative, hsize, hvariable] using hend
        · have hstop : layout.moved hint field ≤ layout.moved hint field + type.encodedLength := by
            omega
          simpa [hnegative, hsize, hvariable] using And.intro hmoved hstop

variable {hint : Int} {layout last : Layout} {fields : List Field}

theorem spans_cons (field : Field) (rest : List Field) :
    (field :: rest).filterMap span? = field.span?.toList ++ rest.filterMap span? := by
  cases hspan : field.span? with
  | none => rw [List.filterMap_cons_none hspan, Option.toList_none, List.nil_append]
  | some span => rw [List.filterMap_cons_some hspan, Option.toList_some, List.singleton_append]

/-- In a group nothing moves back, so its fields end where the layout does. -/
theorem Settled.ascending (h : Settled hint layout fields last) (hhint : hint = 0)
    (hvalid : ∀ field ∈ fields, field.Valid types version) :
    Ascending layout.offset last.offset (fields.filterMap span?) := by
  induction h with
  | nil => simp
  | value htype hroomy hoffset _ ih =>
    rw [spans_cons]
    apply Ascending.append
    · have hmoved := le_moved hroomy (.inl hhint)
      exact ascending_span (hvalid _ List.mem_cons_self) htype hmoved hoffset
    · exact ih hhint fun field hfield => hvalid field (List.mem_cons_of_mem _ hfield)
  | group hroomy _ _ _ _ _ _ ih =>
    rw [spans_cons]
    apply Ascending.append
    · exact le_moved hroomy (.inl hhint)
    · exact ih hhint fun field hfield => hvalid field (List.mem_cons_of_mem _ hfield)

theorem span?_of_negative {field : Field} (h : field.info.computedOffset < 0) :
    field.span? = none := by
  cases field with
  | plain info type => exact if_pos (.inr (.inr h))
  | group => rfl
  | data => rfl

/-- Behind a field of variable length nothing has an offset. -/
theorem Settled.spans_of_isVariable (h : Settled hint layout fields last)
    (hvariable : layout.isVariable = true) : fields.filterMap span? = [] := by
  induction h with
  | nil => rfl
  | @value hint layout last field type rest _ _ hoffset _ ih =>
    have hnegative : field.info.computedOffset < 0 := by
      simp [hoffset, Layout.offsetOf, hvariable, variableLength]
    have hbehind : ((layout.arrived hint field).behind field type).isVariable = true := by
      unfold Layout.behind
      split
      · exact hvariable
      · split
        · rfl
        · simp [hvariable]
    rw [spans_cons, span?_of_negative hnegative, ih hbehind]
    rfl
  | group _ _ _ _ _ _ _ ih =>
    rw [spans_cons, ih rfl]
    rfl

theorem spans_behind {field : Field} {rest : List Field} (h : Row types version (field :: rest))
    (hrank : field.rank ≠ 0) : rest.filterMap span? = [] := by
  rw [List.filterMap_eq_nil_iff]
  intro other hother
  have hle := rank_le_of_siblings h.siblings hother
  cases other with
  | plain => exact absurd (Nat.le_zero.mp hle) hrank
  | group => rfl
  | data => rfl

/-- As long as fields are fixed, both passes over them go together. -/
theorem fixedLength_cons {field : Field} {type : DataType} (rest : List Field)
    (htype : field.type? = some type) (hsize : type.encodedLength ≠ variableLength)
    (hoffset : field.info.computedOffset = layout.offsetOf hint field)
    (hlayout : layout.isVariable = false) :
    fixedLength layout.offset (field :: rest) =
      fixedLength ((layout.arrived hint field).behind field type).offset rest ∧
    ((layout.arrived hint field).behind field type).isVariable = false := by
  simp only [fixedLength, htype, hoffset, Layout.offsetOf, Layout.behind]
  cases field.isConstant <;> simp [hsize, hlayout]

/-- Of the fields that have a length, only a loose constant is ever moved back. -/
theorem Valid.le_moved {field : Field} {type : DataType} (h : field.Valid types version)
    (htype : field.type? = some type) (hsize : type.encodedLength ≠ variableLength)
    (hroomy : layout.Roomy field) (hfirm : field.isLooseConstant hint = false) :
    layout.offset ≤ layout.moved hint field := by
  apply Field.le_moved hroomy
  cases field with
  | group => cases htype
  | data =>
    cases htype
    exact absurd h.encodedLength_data hsize
  | plain info type =>
    cases htype
    cases hvariable : type.isVariable with
    | false => exact .inr (.inr hvariable)
    | true =>
      have hconstant : (Field.plain info type).isConstant = true := by
        rw [← Bool.not_eq_false]
        intro hconstant
        rw [isVariable_eq_false hconstant hsize] at hvariable
        cases hvariable
      have hstays : hint = 0 ∨ info.offset ≠ 0 := by
        by_cases hhint : hint = 0
        · exact .inl hhint
        · exact .inr (by simpa [isLooseConstant, hconstant, hvariable, hsize, hhint] using hfirm)
      exact hstays.imp_right .inl

theorem Settled.ascending_fixedLength (h : Settled hint layout fields last)
    (hrow : Row types version fields)
    (hfirm : ∀ field ∈ fields, field.isLooseConstant hint = false)
    (hlayout : layout.isVariable = false) :
    Ascending layout.offset (fixedLength layout.offset fields) (fields.filterMap span?) := by
  induction h with
  | nil => simp [fixedLength]
  | @value hint layout last field type rest htype hroomy hoffset hrest ih =>
    have hvalid := hrow.valid field List.mem_cons_self
    by_cases hsize : type.encodedLength = variableLength
    · have hbehind : rest.filterMap span? = [] := by
        cases field with
        | plain info type =>
          cases htype
          have hconstant : (Field.plain info type).isConstant = false := by
            rw [← Bool.not_eq_true]
            intro hconstant
            have hfixed : (Field.plain info type).isVariable = false := by
              simpa [isLooseConstant, isVariable, hconstant, hsize] using
                hfirm _ List.mem_cons_self
            exact hvalid.encodedLength_ne rfl hfixed hsize
          apply hrest.spans_of_isVariable
          simp [Layout.behind, hconstant, hsize]
        | group => cases htype
        | data => exact spans_behind hrow (Nat.succ_ne_zero _)
      rw [spans_cons, hbehind, hvalid.span?_eq htype, if_pos (.inr (.inl hsize))]
      simp [fixedLength, htype, hsize]
    · have hmoved := hvalid.le_moved htype hsize hroomy (hfirm field List.mem_cons_self)
      obtain ⟨hlength, hnext⟩ := fixedLength_cons rest htype hsize hoffset hlayout
      rw [spans_cons, hlength]
      apply Ascending.append
      · exact ascending_span hvalid htype hmoved hoffset
      · apply ih hrow.tail _ hnext
        exact fun other hother => hfirm other (List.mem_cons_of_mem _ hother)
  | group =>
    rw [spans_cons, spans_behind hrow (Nat.succ_ne_zero _)]
    simp [span?, fixedLength, type?]

end

/-- A block with its fixed fields inside it and apart from each other. The
declared length is zero where there is none. -/
structure Holds (declared : Int32) (length : Int) (fields : List Field) : Prop where
  inside : ∀ field ∈ fields, ∀ span ∈ field.span?, 0 ≤ span.1 ∧ span.2 ≤ length
  apart : (fields.filterMap span?).Pairwise fun a b => a.2 ≤ b.1
  roomy : declared.toInt ≠ 0 → ∀ field ∈ fields, ∀ span ∈ field.span?, span.2 ≤ declared.toInt

theorem holds_of_ascending {declared : Int32} {computed : Int} {fields : List Field}
    (h : Ascending 0 computed (fields.filterMap span?))
    (hroomy : declared.toInt ≠ 0 → computed ≤ declared.toInt) :
    Holds declared (max declared.toInt computed) fields := by
  have hinside : ∀ field ∈ fields, ∀ span ∈ field.span?, 0 ≤ span.1 ∧ span.2 ≤ computed :=
    fun field hfield span hspan => h.inside span (List.mem_filterMap.mpr ⟨field, hfield, hspan⟩)
  constructor
  · intro field hfield span hspan
    have hspan := hinside field hfield span hspan
    omega
  · exact h.pairwise
  · intro hdeclared field hfield span hspan
    have hspan := hinside field hfield span hspan
    have hcomputed := hroomy hdeclared
    omega

end Field

namespace Schema

/-- The block of every group in an accepted document holds its fields, and so
does that of every message without a loose constant. -/
theorem holds_blocks_of_parse {document : String} {policy : Policy} {schema : Schema}
    (h : parse document policy = .ok schema) :
    ∀ message ∈ schema.messages.values,
      ((∀ field ∈ message.fields,
          field.isLooseConstant message.declaredBlockLength.toInt = false) →
        Field.Holds message.declaredBlockLength message.blockLength message.fields) ∧
      ∀ level, Field.Level message.fields level → ∀ info dimension blockLength inner,
        .group info dimension blockLength inner ∈ level →
          Field.Holds blockLength info.computedBlockLength inner := by
  intro message hmessage
  have hrow := ((valid_of_parse h).message hmessage).row
  obtain ⟨last, hsettled, hlength, hroomy⟩ := (valid_of_parse h).settled hmessage
  constructor
  · intro hfirm
    rw [hlength]
    exact Field.holds_of_ascending (hsettled.ascending_fixedLength hrow hfirm rfl) hroomy
  · intro level hlevel info dimension blockLength inner hgroup
    obtain ⟨_, _, _, hlevelSettled⟩ := hsettled.of_level hlevel
    obtain ⟨inside, hinner, hroomy, hlength⟩ := hlevelSettled.group_of_mem hgroup
    have hinnerRow := hrow.of_level (.group hlevel hgroup)
    rw [hlength]
    exact Field.holds_of_ascending (hinner.ascending rfl hinnerRow.valid) hroomy

/-- For each message, whether it has a loose constant, its block length, and the
bytes of its fixed fields. -/
def blocks (schema : Schema) : List (Bool × Int × List (Int × Int)) :=
  schema.messages.values.map fun message =>
    (message.fields.any (Field.isLooseConstant message.declaredBlockLength.toInt),
      message.blockLength, message.fields.filterMap Field.span?)

/-- A document with declared offsets and block lengths, an array, and constants
between the fields, one of them of variable length. -/
def packed : String :=
  withHeader "<messageSchema package='p' id='7'><types>"
    "<composite name='groupSizeEncoding'>
    <type name='blockLength' primitiveType='uint16'/><type name='numInGroup' primitiveType='uint8'/>
    </composite><type name='code' primitiveType='char' length='3'/>
    <type name='one' primitiveType='uint8' presence='constant'>1</type>
    <type name='K' primitiveType='uint8' presence='constant' variableLength='true'>1</type></types>
    <message name='M' id='1' blockLength='32'><field name='a' id='2' type='code'/>
    <field name='k' id='3' type='one'/><field name='b' id='4' type='uint64' offset='8'/>
    <field name='c' id='5' type='uint16'/><group name='g' id='6' blockLength='12'>
    <field name='d' id='7' type='uint32' offset='4'/><group name='h' id='8'>
    <field name='e' id='9' type='float'/></group></group></message>
    <message name='N' id='2'><field name='a' id='2' type='uint64'/><field name='k' id='3' type='K'/>
    <field name='b' id='4' type='uint8'/></message></messageSchema>"

theorem blocks_packed : (parse packed {}).toOption.map blocks =
    some [(false, 32, [(0, 3), (8, 16), (16, 18)]), (false, 9, [(0, 8), (8, 9)])] := by
  rw [packed, parse_withHeader String.toList_ofList String.toList_ofList]
  decide +kernel

theorem holds_blocks_packed : ∃ schema, parse packed {} = .ok schema ∧
    schema.blocks = [(false, 32, [(0, 3), (8, 16), (16, 18)]), (false, 9, [(0, 8), (8, 9)])] ∧
    ∀ message ∈ schema.messages.values,
      Field.Holds message.declaredBlockLength message.blockLength message.fields ∧
      ∀ level, Field.Level message.fields level → ∀ info dimension blockLength inner,
        .group info dimension blockLength inner ∈ level →
          Field.Holds blockLength info.computedBlockLength inner := by
  obtain ⟨schema, hparse, hblocks⟩ := exists_of_parse blocks_packed
  refine ⟨schema, hparse, hblocks, fun message hmessage => ?_⟩
  obtain ⟨hfields, hgroups⟩ := holds_blocks_of_parse hparse message hmessage
  refine ⟨hfields fun field hfield => ?_, hgroups⟩
  have hentry : (message.fields.any (Field.isLooseConstant message.declaredBlockLength.toInt),
      message.blockLength, message.fields.filterMap Field.span?) ∈ schema.blocks :=
    List.mem_map.mpr ⟨message, hmessage, rfl⟩
  have hnone : message.fields.any (Field.isLooseConstant message.declaredBlockLength.toInt) =
      false := by
    simp only [hblocks, List.mem_cons, Prod.mk.injEq, List.not_mem_nil, or_false] at hentry
    rcases hentry with ⟨hnone, -⟩ | ⟨hnone, -⟩ <;> exact hnone
  simpa using List.any_eq_false.mp hnone field hfield

/-- Messages with a constant of variable length: one is moved to the declared
end of its block, the other ends the fixed part before a field of its own. -/
def loose : String :=
  Schema.withHeader "<messageSchema package='p' id='7'><types>"
    "<type name='K' primitiveType='uint8' presence='constant' variableLength='true'>1</type>
    <type name='V' primitiveType='uint8' variableLength='true'/></types>
    <message name='M' id='1' blockLength='4'><field name='a' id='2' type='uint64'/>
    <field name='k' id='3' type='K'/></message><message name='N' id='2'>
    <field name='v' id='2' type='V' presence='constant'/><field name='a' id='3' type='uint64'/>
    </message></messageSchema>"

theorem blocks_loose : (parse loose {}).toOption.map blocks =
    some [(true, 4, [(0, 8)]), (true, 0, [(0, 8)])] := by
  rw [loose, parse_withHeader String.toList_ofList String.toList_ofList]
  decide +kernel

theorem not_holds_blocks_loose : ∃ schema, parse loose {} = .ok schema ∧
    schema.blocks = [(true, 4, [(0, 8)]), (true, 0, [(0, 8)])] ∧
    ∀ message ∈ schema.messages.values,
      ¬ Field.Holds message.declaredBlockLength message.blockLength message.fields := by
  obtain ⟨schema, hparse, hblocks⟩ := exists_of_parse blocks_loose
  refine ⟨schema, hparse, hblocks, fun message hmessage hholds => ?_⟩
  have hentry : (message.fields.any (Field.isLooseConstant message.declaredBlockLength.toInt),
      message.blockLength, message.fields.filterMap Field.span?) ∈ schema.blocks :=
    List.mem_map.mpr ⟨message, hmessage, rfl⟩
  have hspans : (0, 8) ∈ message.fields.filterMap Field.span? ∧ message.blockLength < 8 := by
    simp only [hblocks, List.mem_cons, Prod.mk.injEq, List.not_mem_nil, or_false] at hentry
    rcases hentry with ⟨-, hlength, hspans⟩ | ⟨-, hlength, hspans⟩ <;> simp [hlength, hspans]
  obtain ⟨field, hfield, hspan⟩ := List.mem_filterMap.mp hspans.1
  have hinside := (hholds.inside field hfield _ hspan).2
  dsimp only at hinside
  omega

end Schema
end SimpleBinary
