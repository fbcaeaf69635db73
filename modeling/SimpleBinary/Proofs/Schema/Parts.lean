import SimpleBinary.Proofs.Schema.Accepted
import SimpleBinary.Proofs.Schema.Places

/-! The types of an accepted schema, part by part. Whatever stands inside a
type, at any depth, has an identifier for a name and keeps the rules of its
kind: what its values are, what tells them apart, and where a member may go. -/
namespace SimpleBinary

namespace Text

def IsLetter (c : Char) : Prop := ('A' ≤ c ∧ c ≤ 'Z') ∨ ('a' ≤ c ∧ c ≤ 'z')

def IsDigit (c : Char) : Prop := '0' ≤ c ∧ c ≤ '9'

/-- A text of the form `[A-Za-z_][A-Za-z0-9_]*`. -/
def IsIdentifier (text : String) : Prop :=
  ∃ first rest, text.toList = first :: rest ∧ (IsLetter first ∨ first = '_') ∧
    ∀ c ∈ rest, IsLetter c ∨ IsDigit c ∨ c = '_'

theorem isAlpha_iff {c : Char} : c.isAlpha = true ↔ IsLetter c := by
  change (decide ('A' ≤ c ∧ c ≤ 'Z') || (decide ('a' ≤ c) && decide (c ≤ 'z'))) = true ↔ _
  simp only [IsLetter, Bool.or_eq_true, Bool.and_eq_true, decide_eq_true_eq]

theorem isDigit_iff {c : Char} : c.isDigit = true ↔ IsDigit c := by
  change (decide ('0' ≤ c) && decide (c ≤ '9')) = true ↔ _
  simp only [IsDigit, Bool.and_eq_true, decide_eq_true_eq]

theorem isName_iff {text : String} : isName text = true ↔ IsIdentifier text := by
  unfold isName IsIdentifier
  cases text.toList with
  | nil => simp [isNameChars]
  | cons first rest =>
    simp only [isNameChars, isNameStart, isNamePart, Bool.and_eq_true, Bool.or_eq_true,
      List.all_eq_true, decide_eq_true_eq, isAlpha_iff, isDigit_iff, or_assoc]
    constructor
    · intro h
      exact ⟨first, rest, rfl, h⟩
    · rintro ⟨_, _, heq, h⟩
      cases heq
      exact h

end Text

theorem Primitive.isFloating_of_isUnsigned {primitive : Primitive}
    (h : primitive.isUnsigned = true) : primitive.isFloating = false := by
  revert h
  cases primitive <;> decide

theorem Primitive.isFloating_of_narrow {primitive : Primitive}
    (h : primitive = .char ∨ primitive = .uint8) : primitive.isFloating = false := by
  rcases h with rfl | rfl <;> rfl

theorem Value.OfPrimitive.eq_long {primitive : Primitive} {value : Value}
    (h : OfPrimitive primitive value) (hinteger : primitive.isFloating = false) :
    ∃ n, value = .long n primitive.size := by
  cases h with
  | @long _ n _ => exact ⟨n, rfl⟩
  | double => cases hinteger
  | single => cases hinteger

namespace NamedValue

theorem find?_key {β : Type} [DecidableEq β] {key : NamedValue → β} {values : List NamedValue}
    (h : values.Pairwise fun a b => key a ≠ key b) {named : NamedValue} (hmem : named ∈ values) :
    values.find? (fun other => key other = key named) = some named := by
  induction values with
  | nil => cases hmem
  | cons first rest ih =>
    obtain ⟨hfirst, hrest⟩ := List.pairwise_cons.mp h
    rcases List.mem_cons.mp hmem with rfl | hmem
    · exact List.find?_cons_of_pos (decide_eq_true rfl)
    · rw [List.find?_cons_of_neg (by simpa using hfirst named hmem)]
      exact ih hrest hmem

def Distinct (values : List NamedValue) : Prop :=
  values.Pairwise fun a b => a.name ≠ b.name ∧ a.value.asLong? ≠ b.value.asLong?

theorem Listed.distinct_numbers {encoding : Primitive} {values : List NamedValue}
    (h : Listed encoding values) (hinteger : encoding.isFloating = false) : Distinct values := by
  refine h.distinct.imp_of_mem fun {a b} ha hb hdistinct => ⟨hdistinct.1, ?_⟩
  obtain ⟨n, hn⟩ := (h.valid a ha).value.eq_long hinteger
  obtain ⟨m, hm⟩ := (h.valid b hb).value.eq_long hinteger
  have hne := hdistinct.2
  rw [hn, hm] at hne ⊢
  intro heq
  cases heq
  simp [BEq.beq, Value.same] at hne

end NamedValue

namespace DataType
variable {type part : DataType}

/-- A type itself and, at any depth, the members of the composites in it. -/
inductive Inside (part : DataType) : DataType → Prop where
  | self : Inside part part
  | member {info : TypeInfo} {members : List DataType} {member : DataType} :
      member ∈ members → Inside part member → Inside part (.composite info members)

theorem Valid.inside (h : type.Valid) (hpart : Inside part type) : part.Valid := by
  induction hpart with
  | self => exact h
  | member hmember _ ih =>
    cases h with
    | composite _ hmembers _ _ => exact ih (hmembers _ hmember)

/-- Where members end that go one behind the other from an offset on. -/
def runningEnd (offset : Int) (members : List DataType) : Int :=
  members.foldl (fun offset member => member.start offset + member.encodedLength) offset

/-- Up to the first member of variable length, a declared offset is not below
the end of the members before it. -/
def OffsetsAbove (members : List DataType) : Prop :=
  ∀ (before after : List DataType) (member : DataType) (declared : Int32),
    members = before ++ member :: after → (∀ other ∈ before, other.isVariable = false) →
    member.info.offset = some declared → runningEnd 0 before ≤ declared.toInt

theorem Spaced.runningEnd_le {before after : List DataType} {member : DataType} {offset : Int}
    (h : Spaced offset (before ++ member :: after))
    (hfixed : ∀ other ∈ before, other.isVariable = false) :
    runningEnd offset before ≤ member.start (runningEnd offset before) := by
  induction before generalizing offset with
  | nil => exact h.1
  | cons first rest ih =>
    apply ih
    · exact (h.2 (hfixed first List.mem_cons_self)).2
    · exact fun other hother => hfixed other (List.mem_cons_of_mem _ hother)

theorem Spaced.offsetsAbove {members : List DataType} (h : Spaced 0 members) :
    OffsetsAbove members := by
  intro before after member declared hmembers hfixed hdeclared
  rw [hmembers] at h
  have hle := h.runningEnd_le hfixed
  rwa [start_of_some _ hdeclared] at hle

/-- The rules that a type keeps by itself, whatever its parts are. -/
def Sound : DataType → Prop
  | .encoded info type =>
    type.Valid info.presence ∧ type.primitive.size * type.length.toInt ≤ 2147483647
  | .enum info type => type.Valid info.presence ∧ NamedValue.Distinct type.values
  | .set _ type => type.Valid ∧ NamedValue.Distinct type.choices
  | .composite _ members => members.Pairwise (fun a b => a.name ≠ b.name) ∧ OffsetsAbove members

theorem Valid.sound (h : type.Valid) : type.Sound := by
  cases h with
  | encoded _ htype => exact ⟨htype, (Check.fits_iff.mp htype.fits).2⟩
  | composite _ _ hnames hspaced => exact ⟨hnames, hspaced.offsetsAbove⟩
  | enum _ htype =>
    exact ⟨htype, htype.values.distinct_numbers (Primitive.isFloating_of_narrow htype.encoding)⟩
  | set _ htype =>
    exact ⟨htype, htype.choices.distinct_numbers
      (Primitive.isFloating_of_isUnsigned htype.encoding)⟩

end DataType

namespace Schema

/-- Every type of an accepted document stands under its own name, and every
part of it keeps the rules. -/
theorem sound_types_of_parse {document : String} {policy : Policy} {schema : Schema}
    (h : parse document policy = .ok schema) :
    ∀ entry ∈ schema.types.entries, entry.1 = entry.2.name ∧
      ∀ part : DataType, part.Inside entry.2 → Text.IsIdentifier part.name ∧ part.Sound := by
  intro entry hentry
  obtain ⟨hvalid, hname⟩ := (valid_of_parse h).types entry hentry
  refine ⟨hname, fun part hpart => ?_⟩
  have hpartValid := hvalid.inside hpart
  exact ⟨Text.isName_iff.mp hpartValid.info.name, hpartValid.sound⟩

/-- A document with a reference ahead of its type, declared offsets, and parts
and groups inside each other. -/
def layered : String :=
  withHeader "<messageSchema package='p' id='7' version='2'><types>"
    "<composite name='groupSizeEncoding'>
    <type name='blockLength' primitiveType='uint16'/><type name='numInGroup' primitiveType='uint8'/>
    </composite><composite name='text'><type name='length' primitiveType='uint8'/>
    <type name='varData' primitiveType='char' characterEncoding='UTF-8'/></composite>
    <composite name='outer'><type name='first' primitiveType='uint16' nullValue='9'/>
    <ref name='again' type='inner' offset='4'/><composite name='deep'>
    <set name='Flags' encodingType='uint8'><choice name='Live'>0</choice>
    <choice name='Late'>7</choice></set>
    <type name='code' primitiveType='char' length='2' presence='constant'>ab</type></composite>
    </composite><composite name='inner'>
    <type name='x' primitiveType='int8' minValue='-5' maxValue='100'/>
    <type name='y' primitiveType='double' offset='8'/></composite>
    <enum name='Side' encodingType='char' presence='optional' nullValue='0'>
    <validValue name='Buy'>B</validValue><validValue name='Sell'>S</validValue></enum></types>
    <message name='M' id='1'><field name='o' id='2' type='outer'/>
    <field name='side' id='3' type='Side' presence='constant' valueRef='Side.Buy' sinceVersion='1'/>
    <group name='g' id='4' blockLength='16'><field name='n' id='5' type='uint64'/>
    <group name='h' id='6'><field name='m' id='5' type='float'/></group>
    <data name='d' id='7' type='text'/></group></message></messageSchema>"

def extent (schema : Schema) : Nat × List Nat :=
  (schema.declaredTypeCount, schema.messages.values.map (·.fields.length))

theorem extent_layered : (parse layered {}).toOption.map extent = some (6, [3]) := by
  rw [layered, parse_withHeader String.toList_ofList String.toList_ofList]
  decide +kernel

theorem parse_layered : ∃ schema, parse layered {} = .ok schema ∧ schema.extent = (6, [3]) :=
  exists_of_parse extent_layered

theorem sound_types_layered :
    ∃ schema, parse layered {} = .ok schema ∧ schema.extent = (6, [3]) ∧
      ∀ entry ∈ schema.types.entries, entry.1 = entry.2.name ∧
        ∀ part : DataType, part.Inside entry.2 → Text.IsIdentifier part.name ∧ part.Sound := by
  obtain ⟨schema, hparse, hextent⟩ := parse_layered
  exact ⟨schema, hparse, hextent, sound_types_of_parse hparse⟩

end Schema
end SimpleBinary
