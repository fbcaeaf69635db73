import SimpleBinary.Ir.Compile
import SimpleBinary.Proofs.Ir.Fits
import SimpleBinary.Proofs.Ir.Formed
import SimpleBinary.Proofs.Record.RoundTrip
import SimpleBinary.Proofs.Schema.Accepted

/-! The record of a compiled document. Its tokens come from a valid schema, so
a record keeps all of them but one kind: a constant group or data element may
refer to a value by any text, and the only byte of a short one is read back as
a number. -/
namespace SimpleBinary

namespace Schema
open Generate

def runs (schema : Schema) : List (Int32 × List Token) :=
  schema.messages.entries.map fun entry => (entry.2.id, messageTokens schema.byteOrder entry.2)

theorem compile_eq_ok {schema : Schema} {namespaceName : Option String} {ir : Ir}
    (h : schema.compile namespaceName = .ok ir) :
    ∃ info members start, schema.types.get? schema.headerType = some (.composite info members) ∧
      Ir.create schema.packageName namespaceName schema.id schema.version schema.semanticVersion
        schema.byteOrder (Token.recount (typeTokens schema.byteOrder 0 none
          (.composite info members))) = .ok start ∧
      ir = start.addAll schema.runs := by
  unfold compile at h
  dsimp only at h
  split at h
  · cases h
  · next info members htype =>
    rw [pure_bind] at h
    obtain ⟨-, -, h⟩ := bind_eq_ok.mp h
    obtain ⟨start, hstart, h⟩ := bind_eq_ok.mp h
    obtain ⟨-, -, h⟩ := bind_eq_ok.mp h
    cases h
    refine ⟨info, members, start, htype, ?_, ?_⟩
    · rwa [headerTokens_eq] at hstart
    · rw [runs, Ir.addAll, List.foldl_map]
  · cases h

section
variable {schema : Schema} (hvalid : schema.Valid)
include hvalid

theorem Valid.runs_ascending : (schema.runs.map (·.1)).Pairwise (· < ·) := by
  have hids : schema.runs.map (·.1) = schema.messages.entries.map (·.1) := by
    unfold runs
    rw [List.map_map]
    exact List.map_congr_left fun entry hentry => (hvalid.messages entry hentry).1.symm
  rw [hids, List.pairwise_map]
  exact schema.messages.sorted.imp Std.compare_eq_lt.mp

theorem Valid.formed_header {info : TypeInfo} {members : List DataType}
    (htype : schema.types.get? schema.headerType = some (.composite info members)) :
    ∀ token ∈ Token.recount (typeTokens schema.byteOrder 0 none (.composite info members)),
      Formed schema.byteOrder token := by
  have hcount : ∀ token : Token,
      Formed schema.byteOrder token.uncounted ↔ Formed schema.byteOrder token := fun _ =>
    ⟨fun h => ⟨⟨h.1.kept, h.1.nonempty⟩, h.2⟩, fun h => ⟨⟨h.1.kept, h.1.nonempty⟩, h.2⟩⟩
  rw [Token.forall_recount hcount (nested_typeTokens _ _ _ _)]
  exact formed_typeTokens _ schema.version _ (hvalid.types.of_get? htype).1 0 none
    fun info hinfo => (Option.not_mem_none info hinfo).elim

end

theorem byteOrderOf_of_formed {order : ByteOrder} {tokens : List Token} {header : HeaderStructure}
    (hmembers : HeaderStructure.ofTokens tokens = .ok header)
    (hformed : ∀ token ∈ tokens, Formed order token) : Record.byteOrderOf tokens = order := by
  obtain ⟨-, hlength, -⟩ := Ir.ofTokens_eq_ok.mp hmembers
  unfold HeaderStructure.primitiveOf at hlength
  split at hlength
  · next primitive hprimitive =>
    obtain ⟨member, hmember, -⟩ := Option.bind_eq_some_iff.mp hprimitive
    have hsignal : member.signal = .encoding := by
      have := List.find?_some hmember
      simp only [Bool.and_eq_true, decide_eq_true_eq] at this
      exact this.1
    cases hfirst : tokens.find? (fun token => token.signal = .encoding) with
    | none =>
      have hnone := List.find?_eq_none.mp hfirst member (List.mem_of_find?_eq_some hmember)
      exact absurd (decide_eq_true hsignal) hnone
    | some first =>
      have hencoding := List.find?_some hfirst
      unfold Record.byteOrderOf
      rw [hfirst]
      exact (hformed first (List.mem_of_find?_eq_some hfirst)).2 (of_decide_eq_true hencoding)
  · cases hlength

/-- The record of a compiled schema is read back, and gives the same schema
just when every field of every message is recordable. -/
theorem Valid.decode_compile {schema : Schema} (hvalid : schema.Valid)
    {namespaceName : Option String} (hnamespace : namespaceName ≠ some "") {ir : Ir}
    {data : List UInt8} (hcompile : schema.compile namespaceName = .ok ir)
    (hencode : Record.encode ir = .ok data) :
    ∃ back, Record.decode data = .ok back ∧ ((back == ir) = true ↔
      ∀ message ∈ schema.messages.values,
        Field.everywhere Field.isRecordable message.fields = true) := by
  obtain ⟨info, members, start, htype, hcreate, rfl⟩ := compile_eq_ok hcompile
  obtain ⟨hfit, rfl⟩ := Record.encode_eq_ok.mp hencode
  have hheader := hvalid.formed_header htype
  obtain ⟨hmembers, htokens⟩ := Record.header_addAll schema.runs hcreate
  have hentries := Record.entries_addAll hcreate hvalid.runs_ascending
  obtain ⟨hkeptNamespace, hkeptSemantic, -⟩ := Record.attributes_addAll schema.runs hcreate
  have hsound : Record.Sound (start.addAll schema.runs) := by
    refine Record.sound_addAll hcreate (bracketed_headerTokens _ _ _)
      (byteOrderOf_of_formed hmembers hheader).symm ?_
    intro run hrun
    obtain ⟨entry, -, rfl⟩ := List.mem_map.mp hrun
    exact messageRun_messageTokens schema.byteOrder entry.2
  -- both what reading asks and what makes the result the same are facts about all tokens
  have hall : ∀ P : Token → Prop, (∀ token ∈ Record.tokens (start.addAll schema.runs), P token) ↔
      (∀ token ∈ Token.recount (typeTokens schema.byteOrder 0 none (.composite info members)),
        P token) ∧
      ∀ message ∈ schema.messages.values, ∀ token ∈ messageTokens schema.byteOrder message,
        P token := by
    intro P
    unfold Record.tokens Table.values
    rw [htokens, hentries, runs]
    simp only [List.mem_append, or_imp, forall_and, List.mem_flatten, List.map_map, List.mem_map]
    refine and_congr_right fun _ => ⟨?_, ?_⟩
    · rintro h _ ⟨entry, hentry, rfl⟩ token htoken
      exact h token ⟨_, ⟨entry, hentry, rfl⟩, htoken⟩
    · rintro h token ⟨_, ⟨entry, hentry, rfl⟩, htoken⟩
      exact h entry.2 ⟨entry, hentry, rfl⟩ token htoken
  have hmessages : ∀ message ∈ schema.messages.values,
      message.Valid schema.types schema.version := fun _ => hvalid.message
  refine ⟨_, Record.decode_wire hsound hfit ((hall _).mpr ⟨?_, ?_⟩), ?_⟩
  · exact fun token htoken => (hheader token htoken).readable.1
  · exact fun message hmessage token htoken =>
      (readable_messageTokens schema.byteOrder (hmessages message hmessage) token htoken).1
  · rw [Record.rereadIr_same_iff (Record.types_addAll hcreate hvalid.runs_ascending)
      (hkeptNamespace ▸ hnamespace) (hkeptSemantic ▸ hvalid.semanticVersion), hall]
    constructor
    · intro h message hmessage
      exact (same_messageTokens_iff _ (hmessages message hmessage)).mp (h.2 message hmessage)
    · intro h
      refine ⟨fun token htoken => Record.reread_same (hheader token htoken).1, ?_⟩
      intro message hmessage
      exact (same_messageTokens_iff _ (hmessages message hmessage)).mpr (h message hmessage)

end Schema

/-- A compiled document is read back from its record, and comes back the same
just when no group or data element at any depth is a constant that refers to a
value by a single byte. -/
theorem Ir.decode_ofDocument {document : String} {policy : Policy} {namespaceName : Option String}
    {ir : Ir} {data : List UInt8} (hnamespace : namespaceName ≠ some "")
    (h : ofDocument document policy namespaceName = .ok (ir, data)) :
    ∃ schema back, Schema.parse document policy = .ok schema ∧ Record.decode data = .ok back ∧
      ((back == ir) = true ↔ ∀ message ∈ schema.messages.values,
        Field.everywhere Field.isRecordable message.fields = true) := by
  obtain ⟨schema, hparse, h⟩ := bind_eq_ok.mp h
  obtain ⟨compiled, hcompile, h⟩ := bind_eq_ok.mp h
  obtain ⟨bytes, hencode, h⟩ := bind_eq_ok.mp h
  cases h
  obtain ⟨back, hback, hsame⟩ :=
    (Schema.valid_of_parse hparse).decode_compile hnamespace hcompile hencode
  exact ⟨schema, back, hparse, hback, hsame⟩

/-- Whether a compiled document comes back from its record the same, if it can
be compiled and read back. -/
def Ir.comesBack? (compiled : Except Error (Ir × List UInt8)) : Option Bool :=
  compiled.toOption.bind fun pair => (Record.decode pair.2).toOption.map (· == pair.1)

theorem Ir.comesBack?_eq_some {compiled : Except Error (Ir × List UInt8)} {same : Bool}
    (h : comesBack? compiled = some same) :
    ∃ ir data back, compiled = .ok (ir, data) ∧ Record.decode data = .ok back ∧
      (back == ir) = same := by
  obtain ⟨pair, hpair, h⟩ := Option.bind_eq_some_iff.mp h
  obtain ⟨back, hback, hsame⟩ := Schema.exists_of_toOption h
  exact ⟨pair.1, pair.2, back, Schema.eq_ok_of_toOption hpair, hback, hsame⟩

/-- A schema with constants of every kind, and a group that refers to a value
by two bytes. -/
def longReference : String :=
  Schema.withHeader "<messageSchema package='p' id='7' version='2' byteOrder='bigEndian'><types>"
    "<composite name='groupSizeEncoding'>
    <type name='blockLength' primitiveType='uint16'/><type name='numInGroup' primitiveType='uint8'/>
    </composite><composite name='text'><type name='length' primitiveType='uint8'/>
    <type name='varData' primitiveType='char' characterEncoding='UTF-8'/></composite>
    <enum name='Side' encodingType='char'><validValue name='Buy'>B</validValue>
    <validValue name='Sell'>S</validValue></enum>
    <type name='code' primitiveType='char' length='2' presence='constant'>ab</type>
    </types><message name='M' id='1'>
    <field name='side' id='2' type='Side' presence='constant' valueRef='Side.Buy'/>
    <field name='c' id='3' type='code'/>
    <field name='n' id='4' type='uint64' presence='optional' sinceVersion='1'/>
    <group name='g' id='5' presence='constant' valueRef='AB'>
    <field name='x' id='6' type='float'/><data name='d' id='7' type='text'/></group>
    </message></messageSchema>"

theorem Ir.comesBack?_longReference :
    comesBack? (ofDocument longReference {} none) = some true := by
  rw [ofDocument, longReference,
    Schema.parse_withHeader String.toList_ofList String.toList_ofList]
  decide +kernel

theorem Ir.decode_ofDocument_longReference :
    ∃ ir data schema back, ofDocument longReference {} none = .ok (ir, data) ∧
      Schema.parse longReference {} = .ok schema ∧ Record.decode data = .ok back ∧
      (back == ir) = true ∧ ∀ message ∈ schema.messages.values,
        Field.everywhere Field.isRecordable message.fields = true := by
  obtain ⟨ir, data, back, hdocument, hback, hsame⟩ := comesBack?_eq_some comesBack?_longReference
  obtain ⟨schema, _, hparse, hback', hiff⟩ := decode_ofDocument (by decide) hdocument
  cases hback.symm.trans hback'
  exact ⟨ir, data, schema, back, hdocument, hparse, hback, hsame, hiff.mp hsame⟩

def shortReference : String :=
  Schema.withHeader "<messageSchema package='p' id='7'><types>"
    "<composite name='groupSizeEncoding'>
    <type name='blockLength' primitiveType='uint16'/>
    <type name='numInGroup' primitiveType='uint16'/>
    </composite></types><message name='M' id='1'>
    <group name='g' id='2' presence='constant' valueRef='A'/></message></messageSchema>"

theorem Ir.comesBack?_shortReference :
    comesBack? (ofDocument shortReference {} none) = some false := by
  rw [ofDocument, shortReference,
    Schema.parse_withHeader String.toList_ofList String.toList_ofList]
  decide +kernel

theorem Ir.decode_ofDocument_shortReference :
    ∃ ir data back, ofDocument shortReference {} none = .ok (ir, data) ∧
      Record.decode data = .ok back ∧ (back == ir) = false :=
  comesBack?_eq_some comesBack?_shortReference

end SimpleBinary
