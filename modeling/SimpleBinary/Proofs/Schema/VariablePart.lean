import SimpleBinary.Proofs.Schema.Blocks

/-! The variable part of messages and groups: where the first group or data
element stands behind fixed plain fields. In a message that is the end of the
block, in a group the end of the fields, whatever block is declared there. -/
namespace SimpleBinary

namespace Field

/-- A group or data element; no fixed field comes behind it. -/
def endsBlock (field : Field) : Bool := field.isGroup || field.isData

def offsetOr (offset : Int) (field : Field) : Int :=
  if field.info.offset = 0 then offset else field.info.offset.toInt

section
variable {types : Table String DataType} {version : Int32} {hint : Int} {layout last : Layout}

theorem moved_of_endsBlock {field : Field} (h : field.endsBlock = true)
    (hoffset : 0 ≤ layout.offset) :
    layout.moved hint field = field.offsetOr (if hint = 0 then layout.offset else hint) := by
  have hplace : layout.offset ≠ variableLength := by
    unfold variableLength
    omega
  have hfree : (field.isGroup || field.isVariable) = true := by
    cases field with
    | plain => cases h
    | group => rfl
    | data => rfl
  unfold Layout.moved offsetOr
  by_cases hdeclared : field.info.offset = 0
  · by_cases hhint : hint = 0 <;> simp [hplace, hdeclared, hfree, hhint]
  · simp [hplace, hdeclared]

theorem moved_zero {field : Field} (hroomy : layout.Roomy field) (h : field.endsBlock = true)
    (hoffset : 0 ≤ layout.offset) :
    layout.moved 0 field = field.offsetOr layout.offset ∧ 0 ≤ layout.moved 0 field := by
  constructor
  · rw [moved_of_endsBlock h hoffset, if_pos rfl]
  · exact Int.le_trans hoffset (le_moved hroomy (.inl rfl))

theorem Valid.encodedLength_of_endsBlock {field : Field} {type : DataType}
    (hvalid : field.Valid types version) (htype : field.type? = some type)
    (h : field.endsBlock = true) : type.encodedLength = variableLength := by
  cases field with
  | plain => cases h
  | group => cases htype
  | data =>
    cases htype
    exact hvalid.encodedLength_data

theorem fixedLength_of_endsBlock {field : Field} (hvalid : field.Valid types version)
    (h : field.endsBlock = true) (length : Int) (rest : List Field) :
    fixedLength length (field :: rest) = length := by
  cases field with
  | plain => cases h
  | group => rfl
  | data => simp [fixedLength, type?, hvalid.encodedLength_data]

theorem Settled.behind_fixed {plains after : List Field} {first : Field}
    (h : Settled hint layout (plains ++ first :: after) last)
    (hrow : Row types version (plains ++ first :: after)) (hfirst : first.endsBlock = true)
    (hplain : ∀ field ∈ plains, field.endsBlock = false)
    (hfixed : ∀ field ∈ plains, field.isFixed = true) (hlayout : layout.isVariable = false) :
    Settled hint ⟨fixedLength layout.offset (plains ++ first :: after), false⟩
        (first :: after) last ∧
      layout.offset ≤ fixedLength layout.offset (plains ++ first :: after) := by
  induction plains generalizing layout with
  | nil =>
    rw [List.nil_append] at h hrow ⊢
    rw [fixedLength_of_endsBlock (hrow.valid first List.mem_cons_self) hfirst, ← hlayout]
    exact ⟨h, Int.le_refl _⟩
  | cons field rest ih =>
    rw [List.cons_append] at h hrow ⊢
    have hvalid := hrow.valid field List.mem_cons_self
    cases h with
    | group => cases hplain _ List.mem_cons_self
    | @value _ _ _ _ type _ htype hroomy hoffset hrest =>
      have hkind : field.isGroup = false ∧ field.isVariable = false := by
        have hends := hplain field List.mem_cons_self
        have htypeFixed := hfixed field List.mem_cons_self
        cases field with
        | plain => simpa [isGroup, isFixed, isVariable] using htypeFixed
        | group => cases hends
        | data => cases hends
      have hsize := hvalid.encodedLength_ne htype hkind.2
      have hmoved : layout.offset ≤ layout.moved hint field :=
        le_moved hroomy (.inr (.inr (by simp [hkind])))
      have hle := (ascending_span hvalid htype hmoved hoffset).le
      obtain ⟨hlength, hnext⟩ :=
        fixedLength_cons (rest ++ first :: after) htype hsize hoffset hlayout
      obtain ⟨hsettled, hmore⟩ := ih hrest hrow.tail
        (fun other hother => hplain other (List.mem_cons_of_mem _ hother))
        (fun other hother => hfixed other (List.mem_cons_of_mem _ hother)) hnext
      rw [hlength]
      exact ⟨hsettled, Int.le_trans hle hmore⟩

theorem Settled.behind_end {field : Field} {rest : List Field}
    (h : Settled hint layout (field :: rest) last) (hvalid : field.Valid types version)
    (hends : field.endsBlock = true) :
    layout.Roomy field ∧ field.info.computedOffset = layout.offsetOf hint field ∧
      ∃ next, next.offset = layout.moved hint field ∧ Settled hint next rest last := by
  cases h with
  | @value _ _ _ _ type _ htype hroomy hoffset hrest =>
    refine ⟨hroomy, hoffset, _, ?_, hrest⟩
    have hsize := hvalid.encodedLength_of_endsBlock htype hends
    rw [Layout.behind, if_pos hsize]
    split <;> rfl
  | group hroomy hoffset _ _ _ hrest => exact ⟨hroomy, hoffset, _, rfl, hrest⟩

/-- In a group, elements behind the fixed fields move the layout only to the
offsets that they declare. -/
theorem Settled.offset_eq {fields : List Field} (h : Settled 0 layout fields last)
    (hvalid : ∀ field ∈ fields, field.Valid types version)
    (hends : ∀ field ∈ fields, field.endsBlock = true) (hoffset : 0 ≤ layout.offset) :
    last.offset = fields.foldl offsetOr layout.offset := by
  induction fields generalizing layout with
  | nil =>
    cases h
    rfl
  | cons field rest ih =>
    obtain ⟨hroomy, -, next, hnext, hrest⟩ :=
      h.behind_end (hvalid field List.mem_cons_self) (hends field List.mem_cons_self)
    obtain ⟨hmoved, hplace⟩ := moved_zero hroomy (hends field List.mem_cons_self) hoffset
    rw [List.foldl_cons, ← hmoved, ← hnext]
    apply ih hrest
    · exact fun other hother => hvalid other (List.mem_cons_of_mem _ hother)
    · exact fun other hother => hends other (List.mem_cons_of_mem _ hother)
    · rw [hnext]
      exact hplace

/-- No plain field comes behind an element that ends the block. -/
theorem filter_endsBlock {plains after : List Field} {first : Field}
    (hrow : Row types version (plains ++ first :: after)) (hfirst : first.endsBlock = true)
    (hplain : ∀ field ∈ plains, field.endsBlock = false) :
    (plains ++ first :: after).filter endsBlock = first :: after := by
  have hsiblings := hrow.append_right.siblings
  have hafter : ∀ field ∈ after, field.endsBlock = true := by
    intro field hfield
    have hrank := rank_le_of_siblings hsiblings hfield
    cases field with
    | group => rfl
    | data => rfl
    | plain =>
      cases first with
      | plain => cases hfirst
      | group => cases hrank
      | data => cases hrank
  rw [List.filter_append, List.filter_eq_nil_iff.mpr (by simpa using hplain), List.nil_append,
    List.filter_eq_self]
  intro field hfield
  rcases List.mem_cons.mp hfield with rfl | hfield
  · exact hfirst
  · exact hafter field hfield

variable {fields : List Field} {first : Field}

theorem Settled.computedOffset_first (h : Settled hint {} fields last)
    (hrow : Row types version fields) (hfirst : fields.find? endsBlock = some first)
    (hfixed : ∀ field ∈ fields, field.isFixed = true) :
    first.info.computedOffset =
        first.offsetOr (if hint = 0 then fixedLength 0 fields else hint) ∧
      0 ≤ fixedLength 0 fields := by
  obtain ⟨hends, plains, after, rfl, hplain⟩ := List.find?_eq_some_iff_append.mp hfirst
  obtain ⟨hbehind, hle⟩ := h.behind_fixed hrow hends (by simpa using hplain)
    (fun field hfield => hfixed field (List.mem_append_left _ hfield)) rfl
  have hvalid := hrow.append_right.valid first List.mem_cons_self
  obtain ⟨-, hoffset, -⟩ := hbehind.behind_end hvalid hends
  rw [hoffset, Layout.offsetOf, if_neg (by simp), moved_of_endsBlock hends hle]
  exact ⟨rfl, hle⟩

/-- A group ends where its first element behind the fixed fields stands, or
further on, at the last offset that is declared behind those. -/
theorem Settled.offset_last (h : Settled 0 {} fields last)
    (hrow : Row types version fields) (hfirst : fields.find? endsBlock = some first)
    (hfixed : ∀ field ∈ fields, field.isFixed = true) :
    last.offset = (fields.filter endsBlock).foldl offsetOr (fixedLength 0 fields) ∧
      first.info.computedOffset ≤ last.offset := by
  obtain ⟨hends, plains, after, rfl, hplain⟩ := List.find?_eq_some_iff_append.mp hfirst
  have hplain : ∀ field ∈ plains, field.endsBlock = false := by simpa using hplain
  have hbehindRow := hrow.append_right
  obtain ⟨hbehind, hle⟩ := h.behind_fixed hrow hends hplain
    (fun field hfield => hfixed field (List.mem_append_left _ hfield)) rfl
  obtain ⟨-, hoffset, next, hnext, hafter⟩ :=
    hbehind.behind_end (hbehindRow.valid first List.mem_cons_self) hends
  have hfilter := filter_endsBlock hrow hends hplain
  constructor
  · rw [hfilter]
    apply hbehind.offset_eq hbehindRow.valid _ hle
    rw [← hfilter]
    exact fun field hfield => (List.mem_filter.mp hfield).2
  · rw [hoffset, Layout.offsetOf, if_neg (by simp), ← hnext]
    exact (hafter.ascending rfl hbehindRow.tail.valid).le

end

end Field

namespace Schema

/-- Where the first group or data element stands behind fixed plain fields. In a
message it is at the end of the block, unless it declares an offset. In a group
it is at the end of the fields, and the block may be longer: up to the length
that is declared, or to the last offset of a later element. -/
theorem variable_part_of_parse {document : String} {policy : Policy} {schema : Schema}
    (h : parse document policy = .ok schema) :
    ∀ message ∈ schema.messages.values,
      (∀ first, message.fields.find? Field.endsBlock = some first →
        (∀ field ∈ message.fields, field.isFixed = true) →
        first.info.computedOffset = first.offsetOr message.blockLength) ∧
      ∀ level, Field.Level message.fields level → ∀ info dimension blockLength inner first,
        .group info dimension blockLength inner ∈ level →
        inner.find? Field.endsBlock = some first → (∀ field ∈ inner, field.isFixed = true) →
        first.info.computedOffset = first.offsetOr (Field.fixedLength 0 inner) ∧
        info.computedBlockLength = max blockLength.toInt
          ((inner.filter Field.endsBlock).foldl Field.offsetOr (Field.fixedLength 0 inner)) ∧
        (first.info.computedOffset = info.computedBlockLength ↔
          (blockLength.toInt = 0 ∨ blockLength.toInt = first.info.computedOffset) ∧
          (inner.filter Field.endsBlock).foldl Field.offsetOr (Field.fixedLength 0 inner) =
            first.info.computedOffset) := by
  intro message hmessage
  have hrow := ((valid_of_parse h).message hmessage).row
  obtain ⟨last, hsettled, hlength, hroomy⟩ := (valid_of_parse h).settled hmessage
  constructor
  · intro first hfirst hfixed
    obtain ⟨hoffset, hnonneg⟩ := hsettled.computedOffset_first hrow hfirst hfixed
    rw [hoffset, hlength]
    congr 1
    split
    · omega
    · next hdeclared =>
      have hblock := hroomy hdeclared
      omega
  · intro level hlevel info dimension blockLength inner first hgroup hfirst hfixed
    obtain ⟨_, _, _, hlevelSettled⟩ := hsettled.of_level hlevel
    obtain ⟨inside, hinner, hfits, hblock⟩ := hlevelSettled.group_of_mem hgroup
    have hinnerRow := hrow.of_level (.group hlevel hgroup)
    obtain ⟨hoffset, hnonneg⟩ := hinner.computedOffset_first hinnerRow hfirst hfixed
    obtain ⟨hlast, hle⟩ := hinner.offset_last hinnerRow hfirst hfixed
    rw [← hlast]
    refine ⟨hoffset, hblock, ?_⟩
    rw [hblock]
    have hstart := (hinner.ascending rfl hinnerRow.valid).le
    dsimp only at hstart
    by_cases hdeclared : blockLength.toInt = 0
    · omega
    · have hroom := hfits hdeclared
      omega

/-- A block with its length, and the offset of the first element behind its fixed
fields. -/
structure Extent where
  length : Int
  allFixed : Bool
  first : Option Int
  deriving DecidableEq

def Extent.of (length : Int) (fields : List Field) : Extent where
  length
  allFixed := fields.all Field.isFixed
  first := (fields.find? Field.endsBlock).map fun first => first.info.computedOffset

theorem Extent.exists_first {length bound offset : Int} {fields : List Field}
    (h : Extent.of length fields = ⟨bound, true, some offset⟩) :
    length = bound ∧ (∀ field ∈ fields, field.isFixed = true) ∧
      ∃ first, fields.find? Field.endsBlock = some first ∧ first.info.computedOffset = offset := by
  refine ⟨congrArg Extent.length h, ?_, ?_⟩
  · exact List.all_eq_true.mp (congrArg Extent.allFixed h)
  · exact Option.map_eq_some_iff.mp (congrArg Extent.first h)

def Extent.ofGroup? : Field → Option Extent
  | .group info _ _ inner => some (.of info.computedBlockLength inner)
  | _ => none

def extents (schema : Schema) : List (Extent × List Extent) :=
  schema.messages.values.map fun message =>
    (.of message.blockLength message.fields, message.fields.filterMap Extent.ofGroup?)

/-- A message and a group in it that both declare more than their fields take. -/
def wide : String :=
  withHeader "<messageSchema package='p' id='7'><types>"
    "<composite name='groupSizeEncoding'>
    <type name='blockLength' primitiveType='uint16'/>
    <type name='numInGroup' primitiveType='uint16'/>
    </composite><composite name='text'><type name='length' primitiveType='uint8'/>
    <type name='varData' primitiveType='uint8'/></composite></types>
    <message name='M' id='1' blockLength='8'><field name='a' id='2' type='uint32'/>
    <group name='g' id='3' blockLength='16'><field name='b' id='4' type='uint32'/>
    <data name='d' id='5' type='text'/></group></message></messageSchema>"

theorem extents_wide : (parse wide {}).toOption.map extents =
    some [(⟨8, true, some 8⟩, [⟨16, true, some 4⟩])] := by
  rw [wide, parse_withHeader String.toList_ofList String.toList_ofList]
  decide +kernel

theorem exists_wide : ∃ schema message info dimension blockLength inner,
    parse wide {} = .ok schema ∧ message ∈ schema.messages.values ∧
      Extent.of message.blockLength message.fields = ⟨8, true, some 8⟩ ∧
      .group info dimension blockLength inner ∈ message.fields ∧
      Extent.of info.computedBlockLength inner = ⟨16, true, some 4⟩ := by
  obtain ⟨schema, hparse, hextents⟩ := exists_of_parse extents_wide
  obtain ⟨message, hmessages, hmessage⟩ := List.map_eq_singleton_iff.mp hextents
  obtain ⟨houter, hgroups⟩ := Prod.mk.inj hmessage
  have hinner : ⟨16, true, some 4⟩ ∈ message.fields.filterMap Extent.ofGroup? := by
    rw [hgroups]
    exact List.mem_singleton_self _
  obtain ⟨field, hfield, hextent⟩ := List.mem_filterMap.mp hinner
  cases field with
  | group info dimension blockLength inner =>
    refine ⟨schema, message, info, dimension, blockLength, inner, hparse, ?_, houter, hfield,
      Option.some.inj hextent⟩
    rw [hmessages]
    exact List.mem_singleton_self _
  | plain => cases hextent
  | data => cases hextent

theorem variable_part_wide : ∃ schema message first info dimension blockLength inner second,
    parse wide {} = .ok schema ∧ message ∈ schema.messages.values ∧
      message.fields.find? Field.endsBlock = some first ∧ first.info.computedOffset = 8 ∧
      first.info.computedOffset = first.offsetOr message.blockLength ∧
      .group info dimension blockLength inner ∈ message.fields ∧
      inner.find? Field.endsBlock = some second ∧ second.info.computedOffset = 4 ∧
      second.info.computedOffset = second.offsetOr (Field.fixedLength 0 inner) := by
  obtain ⟨schema, message, info, dimension, blockLength, inner, hparse, hmessage, houter, hgroup,
    hinside⟩ := exists_wide
  obtain ⟨-, hfixed, first, hfirst, hoffset⟩ := Extent.exists_first houter
  obtain ⟨-, hinnerFixed, second, hsecond, hinnerOffset⟩ := Extent.exists_first hinside
  obtain ⟨hblock, hgroups⟩ := variable_part_of_parse hparse message hmessage
  exact ⟨schema, message, first, info, dimension, blockLength, inner, second, hparse, hmessage,
    hfirst, hoffset, hblock first hfirst hfixed, hgroup, hsecond, hinnerOffset,
    (hgroups _ .top info dimension blockLength inner second hgroup hsecond hinnerFixed).1⟩

/-- The block of a group may be longer than its fields, and what comes behind
them does not wait for its end. -/
theorem variable_part_inside_wide : ∃ schema message info dimension blockLength inner first,
    parse wide {} = .ok schema ∧ message ∈ schema.messages.values ∧
      .group info dimension blockLength inner ∈ message.fields ∧
      (∀ field ∈ inner, field.isFixed = true) ∧ inner.find? Field.endsBlock = some first ∧
      first.info.computedOffset = 4 ∧ info.computedBlockLength = 16 := by
  obtain ⟨schema, message, info, dimension, blockLength, inner, hparse, hmessage, -, hgroup,
    hinside⟩ := exists_wide
  obtain ⟨hlength, hfixed, first, hfirst, hoffset⟩ := Extent.exists_first hinside
  exact ⟨schema, message, info, dimension, blockLength, inner, first, hparse, hmessage, hgroup,
    hfixed, hfirst, hoffset, hlength⟩

end Schema
end SimpleBinary
