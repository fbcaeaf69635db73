import SimpleBinary.Proofs.Schema.Accepted
import SimpleBinary.Proofs.Walk.Message

/-! Messages on the wire. Whatever a simple message of an accepted schema
carries, the walk over its bytes tells of all of it and ends behind it, as
long as every length knows its own width. -/
namespace SimpleBinary

theorem Schema.Valid.ready {schema : Schema} {message : Message} (hvalid : schema.Valid)
    (hmessage : message ∈ schema.messages.values)
    (hsimple : Field.everywhere Field.isSimple message.fields = true)
    (hfixed : Field.everywhere Field.hasFixedLength message.fields = true) :
    (∀ field ∈ message.fields, Field.Ready schema.types schema.version field) ∧
      Field.Siblings message.fields := by
  obtain ⟨entry, hentry, rfl⟩ := List.mem_map.mp hmessage
  obtain ⟨-, declared, hdeclared, harranged⟩ := hvalid.messages entry hentry
  obtain ⟨last, hlaid⟩ := harranged.laid
  have hrow := (hvalid.message hmessage).row
  have hplain : Field.everywhere Field.isFixed entry.2.fields = true := by
    refine Field.everywhere_mono ?_ _ hsimple
    intro field hfield
    cases field with
    | plain info type => exact hfield
    | group => rfl
    | data => rfl
  have hplace := hlaid.everywhere_hasPlace hdeclared.row.valid hdeclared.row.siblings hplain
    (.inl ⟨rfl, by decide⟩)
  have hready := Field.everywhere_and _ (Field.everywhere_and _ hsimple hfixed) hplace
  exact ⟨fun field hfield => ⟨hrow.valid field hfield, Field.throughout_of_mem hready hfield⟩,
    hrow.siblings⟩

namespace Walk
open Generate
open Token (maxCount)

/-- What a simple message carries is heard in full, in the order of its bytes,
and the walk ends behind them. -/
theorem message_wire {document : String} {policy : Policy} {schema : Schema} {message : Message}
    {content : Content} (hparse : Schema.parse document policy = .ok schema)
    (hmessage : message ∈ schema.messages.values)
    (hsimple : Field.everywhere Field.isSimple message.fields = true)
    (hfixed : Field.everywhere Field.hasFixedLength message.fields = true)
    (hlength : (messageTokens schema.byteOrder message).length ≤ maxCount)
    (hfits : content.fits schema.byteOrder message.fields = true) {σ : Type} (listen : Listener σ)
    (front behind : List UInt8) :
    Reports listen (content.between schema.byteOrder message.fields front behind)
        (Walk.message listen (content.between schema.byteOrder message.fields front behind)
          front.length content.block.length (messageTokens schema.byteOrder message))
        (front.length + (content.wire schema.byteOrder message.fields).length)
        (messageHeard schema.byteOrder message front.length content) ∧
      (Willing listen → ∀ state,
        ((Walk.message listen (content.between schema.byteOrder message.fields front behind)
          front.length content.block.length
            (messageTokens schema.byteOrder message)).run.run state).1 =
          .ok (front.length + (content.wire schema.byteOrder message.fields).length)) := by
  obtain ⟨hready, hsiblings⟩ := (Schema.valid_of_parse hparse).ready hmessage hsimple hfixed
  have hreports := reports_message listen _ hready hsiblings hlength hfits
    (rfl : content.between schema.byteOrder message.fields front behind = _)
  exact ⟨hreports, hreports.returns⟩

/-- Orders with two groups inside each other, each with data of its own. -/
def orders : String :=
  Schema.withHeader "<messageSchema package='p' id='7' byteOrder='bigEndian'><types>"
    "<composite name='size'><type name='numInGroup' primitiveType='uint8' offset='1'/>
    <type name='blockLength' primitiveType='uint16'/></composite>
    <composite name='text'><type name='length' primitiveType='uint16'/>
    <type name='varData' primitiveType='char'/></composite>
    <composite name='Price'><type name='mantissa' primitiveType='int32'/>
    <type name='exponent' primitiveType='int8'/></composite></types><message name='M' id='1'>
    <field name='price' id='2' type='Price' offset='2'/><group name='g' id='3' dimensionType='size'>
    <field name='x' id='4' type='uint8'/><group name='h' id='5' dimensionType='size'>
    <field name='y' id='6' type='uint8'/></group><data name='d' id='7' type='text'/></group>
    <data name='e' id='8' type='text'/></message></messageSchema>"

def ordersContent : Content :=
  .mk [1, 2, 3]
    [.mk [0, 2, 0, 2] 2
      [.mk [4, 5] [.mk [9, 2, 0, 1] 1 [.mk [6] [] [], .mk [7] [] []]] [[65]],
        .mk [8, 9] [.mk [9, 0, 0, 3] 3 []] [[]]]]
    [[66, 67]]

def ordersBuffer : List UInt8 :=
  [170, 187, 1, 2, 3, 0, 2, 0, 2, 4, 5, 9, 2, 0, 1, 6, 7, 0, 1, 65, 8, 9, 9, 0, 0, 3, 0, 0, 0, 2,
    66, 67, 204]

def ordersHeard : List Heard :=
  [.beginMessage "M" 1, .beginComposite "price" "Price", .encoding "mantissa" 4 "mantissa",
    .encoding "exponent" 8 "exponent", .endComposite "price" "Price",
    .groupHeader "g" 2, .beginGroup "g" 0 2, .encoding "x" 9 "uint8",
    .groupHeader "h" 2, .beginGroup "h" 0 2, .encoding "y" 15 "uint8", .endGroup "h" 0 2,
    .beginGroup "h" 1 2, .encoding "y" 16 "uint8", .endGroup "h" 1 2,
    .varData "d" 19 [65] "varData", .endGroup "g" 0 2,
    .beginGroup "g" 1 2, .encoding "x" 20 "uint8", .groupHeader "h" 0,
    .varData "d" 28 [] "varData", .endGroup "g" 1 2,
    .varData "e" 30 [66, 67] "varData", .endMessage "M" 1]

def onlyMessage? (document : String) : Option (Schema × Message) :=
  (Schema.parse document {}).toOption.bind fun schema =>
    match schema.messages.values with
    | [message] => some (schema, message)
    | _ => none

theorem exists_of_onlyMessage? {document : String} {p : Schema × Message → Bool}
    (h : (onlyMessage? document).any p = true) :
    ∃ schema message, Schema.parse document {} = .ok schema ∧
      message ∈ schema.messages.values ∧ p (schema, message) = true := by
  obtain ⟨pair, hpair, h⟩ := (Option.any_eq_true _ _).mp h
  unfold onlyMessage? at hpair
  obtain ⟨schema, hparse, hpair⟩ := Option.bind_eq_some_iff.mp hpair
  split at hpair
  · next message hvalues =>
    cases hpair
    exact ⟨schema, message, Schema.eq_ok_of_toOption hparse, hvalues ▸ List.mem_singleton_self _, h⟩
  · cases hpair

/-- A simple message of fixed lengths that has room for a content, given with
its bytes and with what is heard of it. -/
def carries (content : Content) (front behind buffer : List UInt8) (heard : List Heard)
    (pair : Schema × Message) : Bool :=
  let order := pair.1.byteOrder
  let fields := pair.2.fields
  Field.everywhere Field.isSimple fields && Field.everywhere Field.hasFixedLength fields &&
    (messageTokens order pair.2).length ≤ maxCount && content.fits order fields &&
    content.between order fields front behind = buffer &&
    messageHeard order pair.2 front.length content = heard

theorem carries_orders :
    (onlyMessage? orders).any (carries ordersContent [170, 187] [204] ordersBuffer ordersHeard) =
      true := by
  rw [onlyMessage?, orders, Schema.parse_withHeader String.toList_ofList String.toList_ofList]
  decide +kernel

theorem message_wire_orders :
    ∃ schema message, Schema.parse orders {} = .ok schema ∧ message ∈ schema.messages.values ∧
      Field.everywhere Field.isSimple message.fields = true ∧
      Field.everywhere Field.hasFixedLength message.fields = true ∧
      (messageTokens schema.byteOrder message).length ≤ maxCount ∧
      ordersContent.fits schema.byteOrder message.fields = true ∧
      ∀ {σ : Type} (listen : Listener σ),
        Reports listen ordersBuffer
          (Walk.message listen ordersBuffer 2 3 (messageTokens schema.byteOrder message)) 32
          ordersHeard ∧
        (Willing listen → ∀ state, ((Walk.message listen ordersBuffer 2 3
          (messageTokens schema.byteOrder message)).run.run state).1 = .ok 32) := by
  obtain ⟨schema, message, hparse, hmessage, hcarries⟩ := exists_of_onlyMessage? carries_orders
  simp only [carries, Bool.and_eq_true, decide_eq_true_eq] at hcarries
  obtain ⟨⟨⟨⟨⟨hsimple, hfixed⟩, hlength⟩, hfits⟩, hbuffer⟩, hheard⟩ := hcarries
  refine ⟨schema, message, hparse, hmessage, hsimple, hfixed, hlength, hfits, fun listen => ?_⟩
  have hwire := message_wire hparse hmessage hsimple hfixed hlength hfits listen [170, 187] [204]
  have hend : ([170, 187] : List UInt8).length +
      (ordersContent.wire schema.byteOrder message.fields).length = 32 := by
    have hlengths := congrArg List.length hbuffer
    rw [Content.between, List.length_append, List.length_append] at hlengths
    exact Nat.succ.inj hlengths
  rw [hbuffer, hheard, hend] at hwire
  exact hwire

/-- A lone data element whose length has a free end is refused, whatever it
carries. -/
theorem message_free {types : Table String DataType} {version : Int32} {order : ByteOrder}
    {message : Message} {info : FieldInfo} {type : DataType} {content : Content}
    (hvalid : (Field.data info type).Valid types version)
    (hfields : message.fields = [.data info type])
    (hsimple : Field.isSimple (.data info type) = true)
    (hfree : Field.hasFixedLength (.data info type) = false)
    (hlength : (messageTokens order message).length ≤ maxCount)
    (hfits : content.fits order message.fields = true) {σ : Type} (listen : Listener σ)
    (front behind : List UInt8) :
    ∃ token, Walk.message listen (content.between order message.fields front behind) front.length
        content.block.length (messageTokens order message) = (do
      listen (.beginMessage token)
      throw (.walk (.negativeOffset (-1) "varData"))) := by
  obtain ⟨name, lengthInfo, length, contentInfo, contentType, rfl, hframes⟩ :=
    hvalid.data_of_isSimple hsimple
  obtain ⟨token, last, hrun, hsignal, -, -, -, -, hstops, hinside⟩ :=
    exists_messageRun order message hlength
  obtain ⟨block, groups, data⟩ := content
  have hgroup : message.fields.filter Field.isGroup = [] := by
    rw [hfields]
    rfl
  have hdata : message.fields.filter Field.isData = message.fields := by
    rw [hfields]
    rfl
  rw [Content.fits, hgroup, hdata, hfields, Bool.and_eq_true] at hfits
  obtain rfl := groupsFit_nil hfits.1
  obtain ⟨_, _, _, _, _, carried, rest, heq, rfl, hroom, hfit, -⟩ := dataFits_cons hfits.2
  cases heq
  have hbuffer : (Content.mk block [] (carried :: rest)).between order message.fields front behind =
      (front ++ block) ++ (number order length.primitive carried.length ++
        (carried ++ (dataWire order [] rest ++ behind))) := by
    rw [Content.between, Content.wire, hgroup, hdata, hfields, dataWire]
    simp [groupsWire]
  have hlead : ∀ signal, Signal.beginVarData ≠ signal → Token.lead? [last] ≠ some signal →
      Token.lead? (Token.recount (messageFields order message) ++ [last]) ≠ some signal := by
    intro signal hsignal hlast
    refine lead?_wrapped order _ hlast ?_ hinside
    rw [hfields]
    simpa [opens] using hsignal
  have hnoFields := hlead .beginField (by decide) hstops.1
  have hnoGroups := hlead .beginGroup (by decide) hstops.2.1
  have hfreeLength : length.isVariable = true := by
    simpa [Field.hasFixedLength, DataType.isVariable] using hfree
  rw [messageFields, hfields] at hinside
  obtain ⟨_, contentToken, _, -, hcontent, hplace, -, hstep⟩ :=
    exists_dataStep listen _ hframes hinside hroom hfit hbuffer [last]
  have hindex : toIndex contentToken.offset contentToken.name =
      .error (.negativeOffset (-1) "varData") := by
    rw [hplace, hcontent, hframes.encodedLength, if_pos hfreeLength, toIndex, if_pos (by decide)]
    rfl
  refine ⟨token, ?_⟩
  rw [hrun, message_cons listen _ _ _ hsignal, contents, fields_of_lead?_ne listen _ hnoFields,
    Token.skip_of_lead?_ne hnoFields, groups_of_lead?_ne listen _ _ hnoGroups,
    Token.skip_of_lead?_ne hnoGroups]
  rw [← hfields, hindex, List.length_append] at hstep
  simp only [pure_bind, Content.block, messageFields, hstep]
  rfl

def freeLength : String :=
  Schema.withHeader "<messageSchema package='p' id='7'><types>"
    "<composite name='vs'><type name='length' primitiveType='uint8' variableLength='true'/>
    <type name='varData' primitiveType='uint8'/></composite></types><message name='M' id='1'>
    <data name='d' id='2' type='vs'/></message></messageSchema>"

def freeLengthContent : Content := .mk [] [] [[65]]

/-- A simple message of one data element that has room for a content but does
not know where it starts. -/
def carriesFree (content : Content) (pair : Schema × Message) : Bool :=
  Field.everywhere Field.isSimple pair.2.fields &&
    (messageTokens pair.1.byteOrder pair.2).length ≤ maxCount &&
    content.fits pair.1.byteOrder pair.2.fields &&
    match pair.2.fields with
    | [.data info type] => !Field.hasFixedLength (.data info type)
    | _ => false

theorem carriesFree_freeLength :
    (onlyMessage? freeLength).any (carriesFree freeLengthContent) = true := by
  rw [onlyMessage?, freeLength, Schema.parse_withHeader String.toList_ofList String.toList_ofList]
  decide +kernel

theorem message_wire_freeLength :
    ∃ schema message, Schema.parse freeLength {} = .ok schema ∧ message ∈ schema.messages.values ∧
      Field.everywhere Field.isSimple message.fields = true ∧
      (messageTokens schema.byteOrder message).length ≤ maxCount ∧
      freeLengthContent.fits schema.byteOrder message.fields = true ∧
      ∀ {σ : Type} (listen : Listener σ), Willing listen → ∀ state,
        ((Walk.message listen
          (freeLengthContent.between schema.byteOrder message.fields [] []) 0 0
          (messageTokens schema.byteOrder message)).run.run state).1 =
          .error (.walk (.negativeOffset (-1) "varData")) := by
  obtain ⟨schema, message, hparse, hmessage, hcarries⟩ :=
    exists_of_onlyMessage? carriesFree_freeLength
  simp only [carriesFree, Bool.and_eq_true, decide_eq_true_eq] at hcarries
  obtain ⟨⟨⟨hsimple, hlength⟩, hfits⟩, hfree⟩ := hcarries
  refine ⟨schema, message, hparse, hmessage, hsimple, hlength, hfits, ?_⟩
  intro σ listen hwilling state
  split at hfree
  · next info type hfields =>
    have hvalid := ((Schema.valid_of_parse hparse).message hmessage).row.valid (.data info type)
      (hfields ▸ List.mem_singleton_self _)
    have hdata : Field.isSimple (.data info type) = true := by
      simpa [hfields, Field.everywhere, Field.throughout] using hsimple
    obtain ⟨token, htoken⟩ := message_free hvalid hfields hdata (by simpa using hfree) hlength hfits
      listen [] []
    obtain ⟨after, hafter⟩ : ∃ after, (listen (.beginMessage token)).run.run state =
        (.ok (), after) :=
      ⟨_, Prod.ext (hwilling _ state) rfl⟩
    change ((Walk.message listen _ ([] : List UInt8).length freeLengthContent.block.length
      _).run.run state).1 = _
    rw [htoken]
    simp only [ExceptT.run_bind, StateT.run_bind, hafter]
    rfl
  · cases hfree

end Walk
end SimpleBinary
