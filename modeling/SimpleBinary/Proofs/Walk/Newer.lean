import SimpleBinary.Proofs.Walk.Told

/-! Values of fields that are newer than the acting version. The version of a
field is that of its value, unless the field is a composite: then each member
has a version of its own, and only the members that are newer are null. -/
namespace SimpleBinary

mutual

/-- The members of a type that values are read for, at every depth. -/
def DataType.leaves : DataType → List DataType
  | .encoded info type => [.encoded info type]
  | .composite _ members => leavesInside members
  | .enum info type => [.enum info type]
  | .set info type => [.set info type]

def DataType.leavesInside : List DataType → List DataType
  | [] => []
  | member :: rest => member.leaves ++ leavesInside rest

end

namespace Walk
open Generate
open Token (maxCount recount)

def Notice.valueToken? : Notice → Option Token
  | .encoding _ _ type => some type
  | .enum _ _ run => run.head?
  | .set _ _ run => run.head?
  | _ => none

def valueTokens (notices : List Notice) : List Token :=
  notices.filterMap Notice.valueToken?

/-- A value that is null, whatever is in the buffer. -/
def ReadsNull (actingVersion : Int32) (token : Token) : Prop :=
  ∃ null, token.encoding.applicableNull = some null ∧
    ∀ buffer index, readValue buffer index token actingVersion = .ok null

theorem readsNull_of_newer {actingVersion : Int32} {token : Token}
    (hprimitive : token.encoding.primitive.isSome = true) (hnewer : actingVersion < token.version) :
    ReadsNull actingVersion token := by
  obtain ⟨primitive, hsome⟩ := Option.isSome_iff_exists.mp hprimitive
  obtain ⟨null, hnull⟩ : ∃ null, token.encoding.applicableNull = some null := by
    rw [Encoding.applicableNull, hsome]
    cases token.encoding.nullValue with
    | none => exact ⟨_, rfl⟩
    | some null => exact ⟨null, rfl⟩
  refine ⟨null, hnull, fun buffer index => ?_⟩
  rw [readValue, if_pos hnewer, hnull]

theorem readValue_of_not_newer {actingVersion : Int32} {token : Token}
    (h : ¬ actingVersion < token.version) (buffer : List UInt8) (index : Nat) :
    readValue buffer index token actingVersion = readValue buffer index token token.version := by
  unfold readValue
  rw [if_neg h, if_neg Int32.lt_irrefl]

/-- What the token of a value says about it. -/
def standing (token : Token) : String × Int32 × Bool :=
  (token.name, token.version, token.encoding.primitive.isSome)

theorem head?_recount_bracketed {opening : Token} {closing : Signal} {inner : List Token}
    (hclosing : opening.signal.closing? = some closing) (hinner : Token.Nested inner) :
    (recount (bracketed opening closing inner)).head? =
      some (opening.withCount (inner.length + 2)) := by
  have hrun : recount (bracketed opening closing inner) = _ :=
    Token.recount_bracketed hclosing hinner
  rw [hrun, Token.length_recount hinner]
  rfl

theorem exists_head?_typeTokens (order : ByteOrder) (type : DataType) (offset : Int)
    (field : Option FieldInfo) :
    ∃ token, (recount (typeTokens order offset field type)).head? = some token := by
  have hlength := Token.length_recount (nested_typeTokens order type offset field)
  have hpos : 0 < (typeTokens order offset field type).length := by
    cases type <;> rw [typeTokens] <;> exact Nat.succ_pos _
  cases hrun : recount (typeTokens order offset field type) with
  | nil =>
    rw [hrun, List.length_nil] at hlength
    omega
  | cons token rest => exact ⟨token, rfl⟩

theorem valueTokens_append (first second : List Notice) :
    valueTokens (first ++ second) = valueTokens first ++ valueTokens second :=
  List.filterMap_append

theorem exists_valueToken (order : ByteOrder) (owner : Token) (start : Nat) (offset : Int)
    (field : Option FieldInfo) {type : DataType} (hsingle : type.composite? = none) :
    ∃ token, valueTokens (typeNotices order owner start offset field type) = [token] ∧
      standing token =
        (type.name, (field.map (·.sinceVersion)).getD type.info.sinceVersion, true) := by
  cases type with
  | encoded info type =>
    rw [typeNotices]
    exact ⟨_, rfl, rfl⟩
  | composite => cases hsingle
  | enum info type =>
    have hhead : (Notice.enum owner (placeBehind start offset)
        (recount (enumTokens order info type offset field))).valueToken? = some _ :=
      head?_recount_bracketed rfl (nested_namedTokens order rfl rfl _ _)
    rw [typeNotices, valueTokens, List.filterMap_cons_some hhead]
    exact ⟨_, rfl, rfl⟩
  | set info type =>
    have hhead : (Notice.set owner (placeBehind start offset)
        (recount (setTokens order info type offset field))).valueToken? = some _ :=
      head?_recount_bracketed rfl (nested_namedTokens order rfl rfl _ _)
    rw [typeNotices, valueTokens, List.filterMap_cons_some hhead]
    exact ⟨_, rfl, rfl⟩

theorem valueTokens_composite (order : ByteOrder) (owner : Token) (start : Nat) (offset : Int)
    (field : Option FieldInfo) (info : TypeInfo) (members : List DataType) :
    valueTokens (typeNotices order owner start offset field (.composite info members)) =
      valueTokens (memberNotices order (placeBehind start offset) 0 members) := by
  rw [typeNotices, ← List.cons_append, valueTokens_append]
  exact List.append_nil _

mutual

theorem standing_typeNotices (order : ByteOrder) : ∀ (type : DataType) (owner : Token) (start : Nat)
    (offset : Int),
    (valueTokens (typeNotices order owner start offset none type)).map standing =
      type.leaves.map fun leaf => (leaf.name, leaf.info.sinceVersion, true)
  | .composite info members, owner, start, offset => by
    rw [valueTokens_composite, DataType.leaves]
    exact standing_memberNotices order members (placeBehind start offset) 0
  | .encoded info type, owner, start, offset => by
    obtain ⟨token, htoken, hstanding⟩ := exists_valueToken order owner start offset none
      (rfl : (DataType.encoded info type).composite? = none)
    rw [htoken, DataType.leaves, List.map_singleton, hstanding]
    rfl
  | .enum info type, owner, start, offset => by
    obtain ⟨token, htoken, hstanding⟩ := exists_valueToken order owner start offset none
      (rfl : (DataType.enum info type).composite? = none)
    rw [htoken, DataType.leaves, List.map_singleton, hstanding]
    rfl
  | .set info type, owner, start, offset => by
    obtain ⟨token, htoken, hstanding⟩ := exists_valueToken order owner start offset none
      (rfl : (DataType.set info type).composite? = none)
    rw [htoken, DataType.leaves, List.map_singleton, hstanding]
    rfl

theorem standing_memberNotices (order : ByteOrder) : ∀ (members : List DataType) (start : Nat)
    (offset : Int),
    (valueTokens (memberNotices order start offset members)).map standing =
      (DataType.leavesInside members).map fun leaf => (leaf.name, leaf.info.sinceVersion, true)
  | [], start, offset => by
    rw [memberNotices, DataType.leavesInside]
    rfl
  | member :: rest, start, offset => by
    obtain ⟨token, htoken⟩ := exists_head?_typeTokens order member (member.start offset) none
    rw [memberNotices, DataType.leavesInside, valueTokens_append, htoken, List.map_append,
      List.map_append, ← standing_typeNotices order member token start (member.start offset),
      ← standing_memberNotices order rest start (member.start offset + member.encodedLength)]
    rfl

end

/-- What is read for a field that is newer than the acting version. A single
value is null. Of a composite each member goes by its own version. -/
def ReadsNewer (actingVersion : Int32) (type : DataType) (tokens : List Token) : Prop :=
  match type.composite? with
  | none => ∃ token, tokens = [token] ∧ ReadsNull actingVersion token
  | some members =>
    tokens.map (fun token => (token.name, token.version)) =
        (DataType.leavesInside members).map (fun leaf => (leaf.name, leaf.info.sinceVersion)) ∧
      ∀ token ∈ tokens,
        (actingVersion < token.version → ReadsNull actingVersion token) ∧
        (¬ actingVersion < token.version → ∀ buffer index,
          readValue buffer index token actingVersion = readValue buffer index token token.version)

theorem readsNewer_field {actingVersion : Int32} {info : FieldInfo}
    (hnewer : actingVersion < info.sinceVersion) (order : ByteOrder) (type : DataType)
    (owner : Token) (start : Nat) :
    ReadsNewer actingVersion type
      (valueTokens (Told.notices order (.field info type owner start))) := by
  rw [Told.notices, ReadsNewer]
  split
  · next hsingle =>
    obtain ⟨token, htokens, hstanding⟩ :=
      exists_valueToken order owner start info.computedOffset info hsingle
    have hversion : token.version = info.sinceVersion := congrArg (·.2.1) hstanding
    have hprimitive : token.encoding.primitive.isSome = true := congrArg (·.2.2) hstanding
    exact ⟨token, htokens, readsNull_of_newer hprimitive (hversion ▸ hnewer)⟩
  · next members hcomposite =>
    cases type with
    | encoded => cases hcomposite
    | enum => cases hcomposite
    | set => cases hcomposite
    | composite composite inside =>
      cases hcomposite
      have hstanding := standing_memberNotices order members
        (placeBehind start info.computedOffset) 0
      rw [valueTokens_composite]
      refine ⟨?_, fun token htoken => ⟨?_, readValue_of_not_newer⟩⟩
      · have hnames := congrArg (List.map fun told => (told.1, told.2.1)) hstanding
        rw [List.map_map, List.map_map] at hnames
        exact hnames
      · refine readsNull_of_newer ?_
        have hmem := List.mem_map_of_mem (f := standing) htoken
        rw [hstanding] at hmem
        obtain ⟨leaf, -, hleaf⟩ := List.mem_map.mp hmem
        exact (congrArg (·.2.2) hleaf).symm

/-- Whoever listens to whatever buffer, a field that is newer than the acting
version is told through tokens that read as null, or, of a composite, through
tokens that read as null just where a member is newer itself. -/
theorem message_newer {document : String} {policy : Policy} {schema : Schema} {message : Message}
    (hparse : Schema.parse document policy = .ok schema)
    (hmessage : message ∈ schema.messages.values)
    (hlength : (messageTokens schema.byteOrder message).length ≤ maxCount) {σ : Type}
    (listen : Listener σ) (state : σ) (buffer : List UInt8) (offset blockLength : Nat)
    (actingVersion : Int32) :
    ∃ first story last told rest,
      Story schema.byteOrder offset message.fields story ∧
      told ++ rest = .beginMessage first ::
        (story.flatMap (Told.notices schema.byteOrder) ++ [.endMessage last]) ∧
      (Walk.message (recording listen) buffer offset blockLength
        (messageTokens schema.byteOrder message)).run.run (state, []) =
          (((Walk.message listen buffer offset blockLength
              (messageTokens schema.byteOrder message)).run.run state).1,
            ((Walk.message listen buffer offset blockLength
              (messageTokens schema.byteOrder message)).run.run state).2, told) ∧
      (∀ place, ((Walk.message listen buffer offset blockLength
        (messageTokens schema.byteOrder message)).run.run state).1 = .ok place → rest = []) ∧
      ∀ info type owner start, .field info type owner start ∈ story →
        actingVersion < info.sinceVersion →
        ReadsNewer actingVersion type
          (valueTokens (Told.notices schema.byteOrder (.field info type owner start))) := by
  have hobeys := obeys_message ((Schema.valid_of_parse hparse).message hmessage).row hlength buffer
    offset blockLength
  obtain ⟨told, rest, hrule, hrun, hrest⟩ := hobeys.run listen state
  generalize hnotices : told ++ rest = notices at hrule
  cases hrule with
  | @mk story first last inside hrun' hlast hstory =>
    exact ⟨first, story, last, told, rest, hstory, hnotices, hrun, hrest,
      fun info type owner start _ hnewer => readsNewer_field hnewer _ type owner start⟩

theorem PlainStory.exists_mem {start : Nat} {fields : List Field} {story : List Told}
    (h : PlainStory start fields story) {info : FieldInfo} {type : DataType}
    (hmem : .plain info type ∈ fields) : ∃ owner, .field info type owner start ∈ story := by
  induction h with
  | nil => cases hmem
  | @cons _ _ owner _ _ _ _ ih =>
    rcases List.mem_cons.mp hmem with heq | hrest
    · cases heq
      exact ⟨owner, List.mem_cons_self⟩
    · obtain ⟨other, hother⟩ := ih hrest
      exact ⟨other, List.mem_cons_of_mem _ hother⟩

theorem Story.exists_mem {order : ByteOrder} {start : Nat} {fields : List Field} {story : List Told}
    (h : Story order start fields story) {info : FieldInfo} {type : DataType}
    (hmem : .plain info type ∈ fields) : ∃ owner, .field info type owner start ∈ story := by
  cases h with
  | mk hplains _ _ =>
    obtain ⟨owner, hfield⟩ := hplains.exists_mem (List.mem_filter.mpr ⟨hmem, rfl⟩)
    exact ⟨owner, List.mem_append_left _ hfield⟩

theorem MessageStory.exists_mem {order : ByteOrder} {message : Message} {start : Nat}
    {notices : List Notice} (h : MessageStory order message start notices) {info : FieldInfo}
    {type : DataType} (hmem : .plain info type ∈ message.fields) :
    ∃ owner, ∀ notice ∈ Told.notices order (.field info type owner start), notice ∈ notices := by
  cases h with
  | mk _ _ hstory =>
    obtain ⟨owner, hfield⟩ := hstory.exists_mem hmem
    refine ⟨owner, fun notice hnotice => List.mem_cons_of_mem _ (List.mem_append_left _ ?_)⟩
    exact List.mem_flatMap.mpr ⟨_, hfield, hnotice⟩

/-- A number and a price that came with version 1, and in the price an exponent
that came with it. -/
def priced : String :=
  Schema.withHeader "<messageSchema package='p' id='7' version='1'><types>"
    "<composite name='Price'><type name='mantissa' primitiveType='uint8'/>
    <type name='exponent' primitiveType='uint8' sinceVersion='1'/></composite></types>
    <message name='M' id='1'><field name='x' id='2' type='uint8' sinceVersion='1'/>
    <field name='price' id='3' type='Price' sinceVersion='1'/></message></messageSchema>"

def pricedContent : Content := .mk [5, 6, 7] [] []

def readsThere : Notice → Bool
  | .encoding _ index token =>
    index = 1 && token.encoding.applicableNull = some (.long 255 1) &&
      (readValue [5, 6, 7] 1 token 0).toOption = some (.long 6 1) &&
      (readValue [5, 9, 7] 1 token 0).toOption = some (.long 9 1)
  | _ => false

/-- A simple message of a newer number and a newer composite, of which a member
is read from the buffer. -/
def readsMember (pair : Schema × Message) : Bool :=
  Field.everywhere Field.isSimple pair.2.fields &&
    Field.everywhere Field.hasFixedLength pair.2.fields &&
    (messageTokens pair.1.byteOrder pair.2).length ≤ maxCount &&
    pricedContent.fits pair.1.byteOrder pair.2.fields &&
    pricedContent.between pair.1.byteOrder pair.2.fields [] [] = [5, 6, 7] &&
    match pair.2.fields with
    | [.plain first _, .plain second (.composite _ members)] =>
      0 < first.sinceVersion && 0 < second.sinceVersion &&
        (memberNotices pair.1.byteOrder (placeBehind 0 second.computedOffset) 0 members).any
          readsThere
    | _ => false

theorem readsMember_priced : (onlyMessage? priced).any readsMember = true := by
  rw [onlyMessage?, priced, Schema.parse_withHeader String.toList_ofList String.toList_ofList]
  decide +kernel

theorem message_newer_priced :
    ∃ schema message story told rest info type owner, Schema.parse priced {} = .ok schema ∧
      message ∈ schema.messages.values ∧
      (messageTokens schema.byteOrder message).length ≤ maxCount ∧
      Story schema.byteOrder 0 message.fields story ∧ .field info type owner 0 ∈ story ∧
      story.flatMap (Told.notices schema.byteOrder) <:+: told ++ rest ∧
      ((Walk.message (recording silent) [5, 6, 7] 0 3
        (messageTokens schema.byteOrder message)).run.run ((), [])).2.2 = told ∧
      0 < info.sinceVersion ∧
      ReadsNewer 0 type
        (valueTokens (Told.notices schema.byteOrder (.field info type owner 0))) := by
  obtain ⟨schema, message, hparse, hmessage, hreads⟩ := exists_of_onlyMessage? readsMember_priced
  simp only [readsMember, Bool.and_eq_true, decide_eq_true_eq] at hreads
  obtain ⟨⟨⟨⟨-, hlength⟩, -⟩, -⟩, hmember⟩ := hreads
  obtain ⟨first, story, last, told, rest, hstory, htold, hrun, -, hnewer⟩ :=
    message_newer hparse hmessage hlength silent () [5, 6, 7] 0 3 0
  split at hmember
  · next number _ price info members hfields =>
    rw [Bool.and_eq_true, Bool.and_eq_true, decide_eq_true_eq, decide_eq_true_eq] at hmember
    obtain ⟨owner, hfield⟩ := hstory.exists_mem
      (hfields ▸ List.mem_cons_of_mem _ List.mem_cons_self :
        .plain price (.composite info members) ∈ message.fields)
    refine ⟨schema, message, story, told, rest, price, _, owner, hparse, hmessage, hlength, hstory,
      hfield, ?_, congrArg (·.2.2) hrun, hmember.1.2, hnewer _ _ _ _ hfield hmember.1.2⟩
    exact ⟨[.beginMessage first], [.endMessage last], htold.symm⟩
  · cases hmember

theorem message_newer_member :
    ∃ schema message told owner token, Schema.parse priced {} = .ok schema ∧
      message ∈ schema.messages.values ∧
      (∀ field ∈ message.fields, field.isPlain = true ∧ 0 < field.info.sinceVersion) ∧
      (Walk.message (recording silent) [5, 6, 7] 0 3
        (messageTokens schema.byteOrder message)).run.run ((), []) = (.ok 3, (), told) ∧
      .encoding owner 1 token ∈ told ∧
      token.encoding.applicableNull = some (.long 255 1) ∧
      (readValue [5, 6, 7] 1 token 0).toOption = some (.long 6 1) ∧
      (readValue [5, 9, 7] 1 token 0).toOption = some (.long 9 1) := by
  obtain ⟨schema, message, hparse, hmessage, hreads⟩ := exists_of_onlyMessage? readsMember_priced
  simp only [readsMember, Bool.and_eq_true, decide_eq_true_eq] at hreads
  obtain ⟨⟨⟨⟨⟨hsimple, hfixed⟩, hlength⟩, hfits⟩, hbuffer⟩, hmember⟩ := hreads
  obtain ⟨hready, hsiblings⟩ := (Schema.valid_of_parse hparse).ready hmessage hsimple hfixed
  have hbytes : ([5, 6, 7] : List UInt8) =
      [] ++ (pricedContent.wire schema.byteOrder message.fields ++ []) := hbuffer.symm
  have hend : 0 + (pricedContent.wire schema.byteOrder message.fields).length = 3 := by
    have hlengths := congrArg List.length hbytes
    rw [List.nil_append, List.append_nil] at hlengths
    exact (Nat.zero_add _).trans hlengths.symm
  have hreturns := (reports_message silent [5, 6, 7] hready hsiblings hlength hfits hbytes).returns
    willing_silent ()
  change ((Walk.message silent [5, 6, 7] 0 3
    (messageTokens schema.byteOrder message)).run.run ()).1 = .ok (0 + _) at hreturns
  rw [hend] at hreturns
  obtain ⟨told, rest, hrule, hrun, hrest⟩ := (obeys_message
    ((Schema.valid_of_parse hparse).message hmessage).row hlength [5, 6, 7] 0 3).run silent ()
  rw [hreturns] at hrun
  rw [hrest 3 hreturns, List.append_nil] at hrule
  split at hmember
  · next first firstType second info members hfields =>
    rw [Bool.and_eq_true, Bool.and_eq_true, decide_eq_true_eq, decide_eq_true_eq,
      List.any_eq_true] at hmember
    obtain ⟨⟨hfirst, hsecond⟩, notice, hnotice, hthere⟩ := hmember
    have hnewer : ∀ field ∈ message.fields, field.isPlain = true ∧ 0 < field.info.sinceVersion := by
      rw [hfields]
      simpa [Field.isPlain, Field.info] using And.intro hfirst hsecond
    obtain ⟨owner, hfield⟩ := hrule.exists_mem
      (hfields ▸ List.mem_cons_of_mem _ List.mem_cons_self :
        .plain second (.composite info members) ∈ message.fields)
    have htold : notice ∈ told := by
      refine hfield notice ?_
      rw [Told.notices, typeNotices]
      exact List.mem_cons_of_mem _ (List.mem_append_left _ hnotice)
    unfold readsThere at hthere
    split at hthere
    · next member index token =>
      simp only [Bool.and_eq_true, decide_eq_true_eq] at hthere
      obtain ⟨⟨⟨rfl, hnull⟩, hhere⟩, hother⟩ := hthere
      exact ⟨schema, message, told, member, token, hparse, hmessage, hnewer, hrun, htold, hnull,
        hhere, hother⟩
    · cases hthere
  · cases hmember

end Walk
end SimpleBinary
