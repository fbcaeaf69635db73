import SimpleBinary.Proofs.Ir.Lookup
import SimpleBinary.Proofs.Walk.Ends
import SimpleBinary.Proofs.Walk.Told

/-! Messages without content. In a buffer of zeros every group is empty and so is
every data element, so that a walk can fail for two reasons only: the buffer is
too short, or the walk comes to something that has no place. -/
namespace SimpleBinary

/-- Whether an offset, as a token says it, is one that a walk goes to. -/
def isIndex (offset : Int) : Bool := 0 ≤ (Int32.ofInt offset).toInt

theorem IsPlace.isIndex {n : Int} (h : IsPlace n) : isIndex n = true := by
  rw [SimpleBinary.isIndex, h.toInt_ofInt]
  exact decide_eq_true h.1

def Token.hasPlace (token : Token) : Bool := isIndex token.offset.toInt

def Token.isNumber (token : Token) : Bool :=
  token.encoding.primitive.any fun primitive => !primitive.isFloating

def Token.isReadable (token : Token) : Bool := token.hasPlace && token.isNumber

namespace DataType

mutual

def isLaidOut : DataType → Bool
  | .composite _ members => areLaidOut 0 members
  | .encoded .. | .enum .. | .set .. => true

def areLaidOut (offset : Int) : List DataType → Bool
  | [] => true
  | member :: rest =>
    isIndex (member.start offset) && (member.isLaidOut &&
      areLaidOut (member.start offset + member.encodedLength) rest)

end

def found? (order : ByteOrder) (members : List DataType) (name : String) : Option Token :=
  (Generate.memberTokens order 0 members).find? (Token.encodes name)

/-- Whether nothing of variable length stands in front of a member. -/
def isReached (name : String) : List DataType → Bool
  | [] => false
  | member :: rest => member.name = name || !member.isVariable && isReached name rest

end DataType

namespace Field

/-- Whether the members that are found under some names are of some kind. -/
def findsAll (order : ByteOrder) (names : List String) (kind : Token → Bool)
    (type : DataType) : Bool :=
  type.composite?.any fun members =>
    names.all fun name => (DataType.found? order members name).any kind

/-- Whether the numbers that a walk looks for are integers. -/
def isNumbered (order : ByteOrder) : Field → Bool
  | .plain .. => true
  | .group _ dimension _ _ => findsAll order ["blockLength", "numInGroup"] Token.isNumber dimension
  | .data _ type => findsAll order ["length"] Token.isNumber type

/-- Whether a walk gets past a field that is empty. -/
def isWalkable (order : ByteOrder) : Field → Bool
  | .plain info type => isIndex info.computedOffset && type.isLaidOut
  | .group _ dimension _ _ =>
    findsAll order ["blockLength", "numInGroup"] Token.isReadable dimension &&
      !dimension.isVariable
  | .data _ type =>
    findsAll order ["length"] Token.isReadable type &&
      findsAll order ["varData"] Token.hasPlace type

/-- Whether nothing that a walk has to get past is of variable length. -/
def isSteady : Field → Bool
  | .plain _ type => !type.isVariable
  | .group _ dimension _ _ => !dimension.isVariable
  | .data _ type => type.composite?.any fun members =>
      DataType.isReached "length" members && DataType.isReached "varData" members

end Field

theorem Token.hasPlace_iff {token : Token} : token.hasPlace = true ↔ 0 ≤ token.offset.toInt := by
  rw [hasPlace, isIndex, Int32.ofInt_toInt, decide_eq_true_eq]

namespace DataType
open Generate
variable {name : String} {members : List DataType}

theorem Valid.placed {info : TypeInfo} (h : (DataType.composite info members).Valid)
    (hfixed : (DataType.composite info members).isVariable = false) : Placed 0 members := by
  rw [isVariable] at hfixed
  cases h with
  | composite _ hmembers _ hspaced => exact ⟨hmembers, hfixed, hspaced, by decide⟩

theorem Valid.isIndex_encodedLength {info : TypeInfo}
    (h : (DataType.composite info members).Valid) :
    isIndex (DataType.composite info members).encodedLength =
      !(DataType.composite info members).isVariable := by
  cases hvariable : (DataType.composite info members).isVariable with
  | true =>
    rw [isVariable] at hvariable
    rw [encodedLength, membersLength_of_anyVariable hvariable]
    rfl
  | false => exact (h.isPlace_encodedLength hvariable).isIndex

/-- What is found in front of everything of variable length has a place, even if
it is not the member itself. -/
theorem hasPlace_of_isReached {order : ByteOrder} (hvalid : ∀ member ∈ members, member.Valid)
    {offset : Int} (hspaced : Spaced offset members) (hoffset : IsPlace offset)
    (hmember : (encodedMember? members name).isSome = true) (h : isReached name members = true)
    {token : Token}
    (hfound : (memberTokens order offset members).find? (Token.encodes name) = some token) :
    token.hasPlace = true := by
  induction members generalizing offset with
  | nil => cases h
  | cons member rest ih =>
    have hstart := hspaced.isPlace_start hoffset
    have hfirst := hvalid member List.mem_cons_self
    rw [isReached] at h
    rw [memberTokens_cons, List.find?_append] at hfound
    unfold encodedMember? member? at hmember ih
    by_cases hname : member.name = name
    · rw [List.find?_cons_of_pos (by simp [hname])] at hmember
      cases member with
      | encoded info type =>
        rw [typeTokens, List.find?_cons_of_pos] at hfound
        · cases hfound
          rw [Token.hasPlace_iff]
          exact hstart.toInt_ofInt.symm ▸ hstart.1
        · exact Bool.and_eq_true_iff.mpr ⟨rfl, decide_eq_true hname⟩
      | composite => cases hmember
      | enum => cases hmember
      | set => cases hmember
    · rw [List.find?_cons_of_neg (by simp [hname])] at hmember
      have hrest : member.isVariable = false ∧ isReached name rest = true := by
        simpa [hname] using h
      rcases Option.or_eq_some_iff.mp hfound with hfound | ⟨-, hfound⟩
      · have hinside := offset_typeTokens order member _ none hfirst hrest.1 hstart token
          (List.mem_of_find?_eq_some hfound)
        exact Token.hasPlace_iff.mpr hinside
      · obtain ⟨-, hend, hothers⟩ := hspaced.place hfirst hrest.1 hoffset
        exact ih (fun other hother => hvalid other (List.mem_cons_of_mem _ hother)) hothers hend
          hmember hrest.2 hfound

theorem exists_found? (order : ByteOrder) (h : (encodedMember? members name).isSome = true) :
    ∃ token, found? order members name = some token := by
  obtain ⟨token, htoken, hsignal, hname⟩ := exists_encodingToken order h 0
  have hfound : (found? order members name).isSome = true := by
    rw [found?, List.find?_isSome]
    exact ⟨token, htoken, by simp [Token.encodes, hsignal, hname]⟩
  exact Option.isSome_iff_exists.mp hfound

mutual

theorem Valid.isLaidOut : ∀ {type : DataType}, type.Valid → type.isVariable = false →
    type.isLaidOut = true
  | .composite _ members, .composite _ hmembers _ hspaced, hfixed => by
    rw [isVariable] at hfixed
    rw [DataType.isLaidOut]
    exact Placed.areLaidOut ⟨hmembers, hfixed, hspaced, by decide⟩
  | .encoded .., _, _ => by rw [DataType.isLaidOut]
  | .enum .., _, _ => by rw [DataType.isLaidOut]
  | .set .., _, _ => by rw [DataType.isLaidOut]

theorem Placed.areLaidOut : ∀ {members : List DataType} {offset : Int}, Placed offset members →
    DataType.areLaidOut offset members = true
  | [], _, _ => by rw [DataType.areLaidOut]
  | member :: rest, offset, h => by
    obtain ⟨-, hstart, -, hrest⟩ := h.cons
    have hfixed := h.fixed
    rw [anyVariable, Bool.or_eq_false_iff] at hfixed
    rw [DataType.areLaidOut, hstart.isIndex,
      (h.valid member List.mem_cons_self).isLaidOut hfixed.1, hrest.areLaidOut]
    rfl

end

end DataType

section
variable {order : ByteOrder}

theorem Field.findsAll_isReadable {names : List String} {type : DataType}
    (hplace : findsAll order names Token.hasPlace type = true)
    (hnumber : findsAll order names Token.isNumber type = true) :
    findsAll order names Token.isReadable type = true := by
  unfold findsAll at *
  cases hcomposite : type.composite? with
  | none =>
    rw [hcomposite] at hplace
    cases hplace
  | some members =>
    rw [hcomposite, Option.any_some, List.all_eq_true] at hplace hnumber
    rw [Option.any_some, List.all_eq_true]
    intro name hname
    have hboth := And.intro (hplace name hname) (hnumber name hname)
    cases hfound : DataType.found? order members name with
    | none => simp [hfound] at hboth
    | some token =>
      rw [hfound, Option.any_some, Option.any_some] at hboth
      rw [Option.any_some, Token.isReadable, hboth.1, hboth.2]
      rfl

theorem DataType.Placed.findsAll {info : TypeInfo} {members : List DataType}
    (h : DataType.Placed 0 members) {names : List String}
    (hnames : ∀ name ∈ names, (DataType.encodedMember? members name).isSome = true) :
    Field.findsAll order names Token.hasPlace (.composite info members) = true := by
  rw [Field.findsAll, DataType.composite?, Option.any_some, List.all_eq_true]
  intro name hname
  obtain ⟨token, htoken⟩ := DataType.exists_found? order (hnames name hname)
  rw [htoken, Option.any_some, Token.hasPlace_iff]
  exact Generate.offset_memberTokens order members 0 h token (List.mem_of_find?_eq_some htoken)

theorem Field.isWalkable_of_isSteady {types : Table String DataType} {version : Int32}
    {field : Field} (hvalid : field.Valid types version) (hplace : field.hasPlace = true)
    (hsteady : field.isSteady = true) (hnumbered : field.isNumbered order = true) :
    field.isWalkable order = true := by
  cases hvalid with
  | plain _ htype _ =>
    rw [isSteady, Bool.not_eq_true'] at hsteady
    have hindex := IsPlace.isIndex (of_decide_eq_true hplace)
    rw [isWalkable, hindex, htype.isLaidOut hsteady]
    rfl
  | @group _ dimension members _ _ _ hdimension hlengths hcounts =>
    rw [isSteady, Bool.not_eq_true'] at hsteady
    obtain ⟨_, hlengths, -⟩ := hlengths
    obtain ⟨_, hcounts, -⟩ := hcounts
    rw [isWalkable, hsteady, Bool.and_eq_true]
    refine ⟨findsAll_isReadable ((hdimension.placed hsteady).findsAll ?_) hnumbered, rfl⟩
    simp [hlengths, hcounts]
  | @data info composite members _ htype _ hmeasures hcontent =>
    have hfreed := htype.asVarData
    rw [DataType.asVarData_composite] at hsteady hfreed hnumbered ⊢
    have hreached := Bool.and_eq_true_iff.mp (hsteady : (_ && _) = true)
    obtain ⟨content, hcontent, -⟩ := DataType.isVariable_content hcontent
    obtain ⟨length, hlength, -⟩ := hmeasures.freed
    cases hfreed with
    | composite _ hmembers _ hspaced =>
      have hplaces : ∀ name, DataType.isReached name (members.map .freed) = true →
          (DataType.encodedMember? (members.map .freed) name).isSome = true →
          findsAll order [name] Token.hasPlace (.composite composite (members.map .freed)) =
            true := by
        intro name hname hmember
        obtain ⟨token, htoken⟩ := DataType.exists_found? order hmember
        have hplace := DataType.hasPlace_of_isReached hmembers hspaced (by decide) hmember hname
          htoken
        simp [findsAll, DataType.composite?, htoken, hplace]
      rw [isWalkable, Bool.and_eq_true]
      have hlengthPlace := hplaces _ hreached.1 (Option.isSome_of_eq_some hlength)
      exact ⟨findsAll_isReadable hlengthPlace hnumbered,
        hplaces _ hreached.2 (Option.isSome_of_eq_some hcontent)⟩

end

theorem Field.of_everywhere {kind : Field → Bool} {fields : List Field} {field : Field}
    (h : everywhere kind fields = true) (hfield : field ∈ fields) : kind field = true := by
  have hthrough := throughout_of_mem h hfield
  cases field with
  | plain => exact hthrough
  | group =>
    rw [throughout, Bool.and_eq_true] at hthrough
    exact hthrough.1
  | data => exact hthrough

/-- In an accepted message without variable lengths nothing is out of reach. -/
theorem Schema.Valid.walkable {schema : Schema} {message : Message} (hvalid : schema.Valid)
    (hmessage : message ∈ schema.messages.values)
    (hsteady : Field.everywhere Field.isSteady message.fields = true) {order : ByteOrder}
    (hnumbered : message.fields.all (Field.isNumbered order) = true) :
    message.fields.all (Field.isWalkable order) = true := by
  obtain ⟨entry, hentry, rfl⟩ := List.mem_map.mp hmessage
  obtain ⟨-, declared, hdeclared, harranged⟩ := hvalid.messages entry hentry
  obtain ⟨last, hlaid⟩ := harranged.laid
  have hfixed : Field.everywhere Field.isFixed entry.2.fields = true := by
    refine Field.everywhere_mono (fun field hfield => ?_) _ hsteady
    cases field with
    | plain => exact hfield
    | group => rfl
    | data => rfl
  have hplace := hlaid.everywhere_hasPlace hdeclared.row.valid hdeclared.row.siblings hfixed
    (.inl ⟨rfl, by decide⟩)
  rw [List.all_eq_true] at hnumbered ⊢
  intro field hfield
  exact Field.isWalkable_of_isSteady ((hvalid.message hmessage).row.valid field hfield)
    (Field.of_everywhere hplace hfield) (Field.of_everywhere hsteady hfield)
    (hnumbered field hfield)

namespace Walk
open Generate
open Token (Whole maxCount recount)

theorem resolves_toIndex {word : Int32} {offset : Int} (hword : word = Int32.ofInt offset)
    (owner : String) :
    Resolves (fun _ => toIndex word owner)
      (if isIndex offset then some (Int32.ofInt offset).toInt.toNat else none) := by
  rw [hword]
  by_cases h : isIndex offset = true
  · rw [if_pos h]
    refine .settles 0 fun _ => .inl ?_
    rw [toIndex, if_neg (Int.not_lt.mpr (of_decide_eq_true h))]
  · rw [if_neg h]
    refine .never fun _ => ⟨.negativeOffset (Int32.ofInt offset) owner, ?_⟩
    rw [toIndex, if_pos (Int.not_le.mp (of_decide_eq_false (Bool.eq_false_iff.mpr h)))]

mutual

theorem ends_walkType (order : ByteOrder) : ∀ (type : DataType) (offset : Int)
    (field : Option FieldInfo), (typeTokens order offset field type).length ≤ maxCount →
    ∀ (owner : Token) (place : Nat), Ends (fun _ _ listen =>
      walkType listen owner place (recount (typeTokens order offset field type))) type.isLaidOut
  | .encoded info type, offset, field, _, owner, place => by
    rw [typeTokens, Token.recount_leaf rfl rfl .nil, DataType.isLaidOut]
    exact .tell _
  | .enum info type, offset, field, hlength, owner, place => by
    rw [typeTokens] at hlength ⊢
    obtain ⟨last, hrun, -⟩ :=
      exists_bracketedRun rfl (nested_namedTokens order rfl rfl _ type.values) hlength
    unfold enumTokens
    rw [hrun, DataType.isLaidOut]
    exact .tell _
  | .set info type, offset, field, hlength, owner, place => by
    rw [typeTokens] at hlength ⊢
    obtain ⟨last, hrun, -⟩ :=
      exists_bracketedRun rfl (nested_namedTokens order rfl rfl _ type.choices) hlength
    unfold setTokens
    rw [hrun, DataType.isLaidOut]
    exact .tell _
  | .composite info members, offset, field, hlength, owner, place => by
    rw [typeTokens] at hlength ⊢
    obtain ⟨last, hrun, -⟩ :=
      exists_bracketedRun rfl (nested_memberTokens order members 0) hlength
    have hinside : (memberTokens order 0 members).length ≤ maxCount := by
      rw [length_bracketed] at hlength
      omega
    have hmembers := ends_members order members 0 hinside place last
    rw [hrun, DataType.isLaidOut]
    refine .congr (fun _ _ listen => composite.eq_2 ..) ?_
    exact .tellThen _ (.thenTell _ hmembers)

theorem ends_members (order : ByteOrder) : ∀ (members : List DataType) (offset : Int),
    (memberTokens order offset members).length ≤ maxCount → ∀ (index : Nat) (last : Token),
    Ends (fun _ _ listen =>
      Walk.members listen index (recount (memberTokens order offset members) ++ [last]))
      (DataType.areLaidOut offset members)
  | [], offset, _, index, last => by
    rw [memberTokens, DataType.areLaidOut]
    exact .congr (fun _ _ listen => members.eq_2 ..) (.pure ())
  | member :: rest, offset, hlength, index, last => by
    rw [memberTokens_cons, List.length_append] at hlength
    obtain ⟨token, others, hrun, hwhole, -, hoffset, -, -, hsignal⟩ :=
      exists_typeRun order member (member.start offset) none (by omega)
    have hfirst := ends_walkType order member (member.start offset) none (by omega) token
      (placeBehind index (member.start offset))
    have hothers := ends_members order rest (member.start offset + member.encodedLength)
      (by omega) index last
    rw [memberTokens_cons, Token.recount_append (nested_typeTokens order member _ none)
      (nested_memberTokens order rest _), List.append_assoc, DataType.areLaidOut]
    rw [hrun] at hfirst ⊢
    refine .congr (fun _ _ listen => members_append listen index hwhole hsignal (by simp)) ?_
    exact .certain_ite (resolves_toIndex hoffset token.name) (hfirst.bind fun _ => hothers)

end

/-- A plain field is gone to at its offset, in whatever block. -/
theorem ends_fields (order : ByteOrder) (starts : List Nat) (index : Nat) {tail : List Token}
    (htail : Token.lead? tail ≠ some .beginField) {plains : List Field}
    (hplains : ∀ field ∈ plains, field.isPlain = true) {base : Nat}
    (hlength : (wrapped order starts base plains).length ≤ maxCount) :
    Ends (fun _ _ listen =>
      fields listen index (recount (wrapped order starts base plains) ++ tail))
      (plains.all (Field.isWalkable order)) := by
  induction plains generalizing base with
  | nil =>
    rw [wrapped_nil]
    exact .congr (fun _ _ listen => fields_of_lead?_ne listen index htail) (.pure ())
  | cons field rest ih =>
    obtain ⟨token, last, next, hrun, hwhole, hsignal, -, hinside, hrest⟩ :=
      exists_fieldRun order starts base field rest hlength
    have hothers := ih (fun other hother => hplains other (List.mem_cons_of_mem _ hother)) hrest
    have hkind := hplains field List.mem_cons_self
    cases field with
    | group => cases hkind
    | data => cases hkind
    | plain info type =>
      rw [body] at hrun hwhole hinside
      obtain ⟨first, inside, htype, -, -, hoffset, -⟩ :=
        exists_typeRun order type info.computedOffset info hinside
      have hfirst := ends_walkType order type info.computedOffset info hinside token
        (placeBehind index info.computedOffset)
      rw [htype] at hrun hwhole hfirst
      have hfield : Ends (fun _ _ listen =>
          Walk.field listen index token (token :: (first :: inside ++ [last])))
          (isIndex info.computedOffset && type.isLaidOut) :=
        .congr (fun _ _ listen => field_bracketed listen index token)
          (.certain_ite (resolves_toIndex hoffset first.name) hfirst)
      rw [hrun, List.append_assoc, List.all_cons, Field.isWalkable]
      refine .congr (fun _ _ listen => fields_append listen index hwhole hsignal _) ?_
      exact hfield.bind fun _ => hothers

def zeros (size : Nat) : List UInt8 := List.replicate size 0

@[simp] theorem length_zeros (size : Nat) : (zeros size).length = size := List.length_replicate

theorem arrange_zeros (order : ByteOrder) (size : Nat) :
    Bytes.arrange order (zeros size) = zeros size := by
  cases order with
  | little => rfl
  | big => exact List.reverse_replicate

theorem toNat_zeros (size : Nat) : Bytes.toNat (zeros size) = 0 := by
  induction size with
  | zero => rfl
  | succ size ih =>
    rw [zeros, List.replicate_succ, Bytes.toNat]
    change 0 + 256 * Bytes.toNat (zeros size) = 0
    rw [ih]

theorem resolves_readInteger (index : Nat) (primitive : Primitive) (order : ByteOrder) :
    Resolves (fun size => readInteger (zeros size) index primitive order)
      (if !primitive.isFloating then some 0 else none) := by
  cases hfloating : primitive.isFloating with
  | true =>
    refine .never fun size => ⟨.notInteger primitive, ?_⟩
    rw [readInteger, if_pos hfloating]
  | false =>
    have hvalue : (Value.ofBits primitive 0).asLong? = some 0 := by
      cases primitive <;> first | rfl | cases hfloating
    refine .settles (index + primitive.size) fun size => ?_
    unfold readInteger Value.read?
    rw [if_neg (by simp [hfloating]), length_zeros]
    by_cases h : index + primitive.size ≤ size
    · have hbytes : ((zeros size).drop index).take primitive.size = zeros primitive.size := by
        unfold zeros
        rw [List.drop_replicate, List.take_replicate]
        congr 1
        omega
      rw [if_pos h]
      dsimp only
      rw [hbytes, arrange_zeros, toNat_zeros, Option.bind_some, hvalue]
      exact .inl rfl
    · rw [if_neg h]
      exact .inr ⟨by omega, _, rfl⟩

theorem resolves_offset (token : Token) :
    Resolves (fun _ => toIndex token.offset token.name)
      (if token.hasPlace then some token.offset.toInt.toNat else none) := by
  have hindex := resolves_toIndex (Int32.ofInt_toInt token.offset).symm token.name
  rwa [Int32.ofInt_toInt] at hindex

/-- The number at a token is zero, if there is one. -/
theorem resolves_readMember (index : Nat) {token : Token}
    (hprimitive : token.encoding.primitive.isSome = true) :
    Resolves (fun size => readMember (zeros size) index token)
      (if token.isReadable then some 0 else none) := by
  obtain ⟨primitive, hprimitive⟩ := Option.isSome_iff_exists.mp hprimitive
  have hreadable : (if token.isReadable then some (0 : Int64) else none) =
      if token.hasPlace then if !primitive.isFloating then some 0 else none else none := by
    rw [Token.isReadable, Token.isNumber, hprimitive, Option.any_some]
    cases token.hasPlace <;> rfl
  unfold readMember
  rw [hprimitive, hreadable]
  exact (resolves_offset token).bind_ite (resolves_readInteger _ primitive _)

theorem resolves_toLength (owner : String) : Resolves (fun _ => toLength 0 owner) (some 0) :=
  .pure 0

theorem resolves_advance (index length : Nat) (owner : Token) :
    Resolves (fun size => advance (zeros size) index length owner) (some (index + length)) := by
  unfold advance
  simp only [length_zeros]
  exact .room (index + length)

/-- What is found in the counted run of a composite, and is told of it before. -/
theorem exists_found_composite (order : ByteOrder) {members : List DataType} {name : String}
    (h : (DataType.encodedMember? members name).isSome = true) (offset : Int)
    (field : Option FieldInfo) (info : TypeInfo) :
    ∃ token, (recount (typeTokens order offset field (.composite info members))).find?
        (Token.encodes name) = some token ∧ token.encoding.primitive.isSome = true ∧
      (DataType.found? order members name).any Token.hasPlace = token.hasPlace ∧
      (DataType.found? order members name).any Token.isReadable = token.isReadable := by
  obtain ⟨other, hother⟩ := DataType.exists_found? order h
  have hcounted := find?_composite order name members offset field info
  rw [← DataType.found?, hother, Option.map_some] at hcounted
  obtain ⟨token, htoken, hsame⟩ := Option.map_eq_some_iff.mp hcounted
  have hplace : other.hasPlace = token.hasPlace := (congrArg Token.hasPlace hsame).symm
  have hreadable : other.isReadable = token.isReadable := (congrArg Token.isReadable hsame).symm
  have hencoding : other.encoding = token.encoding := (congrArg Token.encoding hsame).symm
  have hsignal : other.signal = .encoding := by
    have hencodes := List.find?_some hother
    simp only [Token.encodes, Bool.and_eq_true, decide_eq_true_eq] at hencodes
    exact hencodes.1
  have hprimitive := primitive_memberTokens order members 0 other
    (List.mem_of_find?_eq_some hother) hsignal
  rw [hencoding] at hprimitive
  rw [hother, Option.any_some, Option.any_some]
  exact ⟨token, htoken, hprimitive, hplace, hreadable⟩

/-- Both numbers of a dimension are looked for by name, and the entries start
behind its type. -/
theorem dimension_eq {order : ByteOrder} {info : TypeInfo} {members : List DataType}
    {type : DataType} {field : Option FieldInfo} {lengthToken countToken : Token}
    (htype : type = .composite info members)
    (hlength : (typeTokens order 0 field type).length ≤ maxCount)
    (hlengthToken : (recount (typeTokens order 0 field type)).find? (Token.encodes "blockLength") =
      some lengthToken)
    (hcountToken : (recount (typeTokens order 0 field type)).find? (Token.encodes "numInGroup") =
      some countToken) (buffer : List UInt8) (index : Nat) (group opening last : Token)
    (inner : List Token) :
    dimension buffer index group
        (opening :: (recount (typeTokens order 0 field type) ++ inner ++ [last])) = (do
      let blockLength ← readMember buffer index lengthToken
      let blockLength ← toLength blockLength "blockLength"
      let entries ← readMember buffer index countToken
      let size ← toIndex (Int32.ofInt type.encodedLength) type.name
      let start ← advance buffer index size group
      if buffer.length - start < entries.toUInt64.toNat * blockLength then
        throw (.groupOverrun group.name entries.toUInt64.toNat blockLength buffer.length)
      return { blockLength, entries := entries.toUInt64.toNat, start }) := by
  obtain ⟨first, rest, hrun, hwhole, hname, -, hsize, hsignal, -⟩ :=
    exists_typeRun order type 0 field hlength
  have hinside := component_append hwhole inner
  have hfirst := member_append hlengthToken [] group
  have hsecond := member_append hcountToken [] group
  rw [List.append_nil, hrun] at hfirst hsecond
  rw [List.cons_append] at hinside
  unfold dimension
  rw [hrun, List.cons_append, Token.inner_bracketed]
  dsimp only
  rw [if_neg (by simp [hsignal, htype, typeSignal]), hinside, ← hsize, ← hname]
  simp only [bind, Except.bind, hfirst, hsecond]

/-- An empty group ends behind its dimension, if that is of a known length and
integers are found in it. -/
theorem resolves_dimension {order : ByteOrder} {info : TypeInfo} {members : List DataType}
    {field : Option FieldInfo} (hvalid : (DataType.composite info members).Valid)
    (hlengths : DataType.Measures members "blockLength")
    (hcounts : DataType.Measures members "numInGroup")
    (hlength : (typeTokens order 0 field (.composite info members)).length ≤ maxCount)
    (index : Nat) (group opening last : Token) (inner : List Token) :
    Resolves (fun size => dimension (zeros size) index group (opening ::
        (recount (typeTokens order 0 field (.composite info members)) ++ inner ++ [last])))
      (if Field.findsAll order ["blockLength", "numInGroup"] Token.isReadable
          (.composite info members) && !(DataType.composite info members).isVariable then
        some ⟨0, 0, placeBehind index (DataType.composite info members).encodedLength⟩
      else none) := by
  obtain ⟨_, hlengths, -⟩ := hlengths
  obtain ⟨_, hcounts, -⟩ := hcounts
  obtain ⟨lengthToken, hlengthToken, hlengthPrimitive, -, hlengthRead⟩ :=
    exists_found_composite order (Option.isSome_of_eq_some hlengths) 0 field info
  obtain ⟨countToken, hcountToken, hcountPrimitive, -, hcountRead⟩ :=
    exists_found_composite order (Option.isSome_of_eq_some hcounts) 0 field info
  have hfound : Field.findsAll order ["blockLength", "numInGroup"] Token.isReadable
      (.composite info members) = (lengthToken.isReadable && countToken.isReadable) := by
    simp [Field.findsAll, DataType.composite?, hlengthRead, hcountRead]
  have hsteps : ∀ (a b c : Bool) (dimension : Dimension),
      (if a && b && c then some dimension else none) =
        if a then if b then if c then some dimension else none else none else none := by
    intro a b c dimension
    cases a <;> cases b <;> rfl
  simp only [dimension_eq rfl hlength hlengthToken hcountToken, hfound,
    ← hvalid.isIndex_encodedLength, hsteps]
  refine (resolves_readMember index hlengthPrimitive).bind_ite ?_
  refine .bind_some (resolves_toLength "blockLength") ?_
  refine (resolves_readMember index hcountPrimitive).bind_ite ?_
  refine (resolves_toIndex rfl _).bind_ite ?_
  refine (resolves_advance index _ group).bind_some ?_
  exact .settles 0 fun _ => .inl (if_neg (Nat.not_lt_zero _))

section
variable {types : Table String DataType} {version : Int32} {order : ByteOrder}

theorem ends_groups (starts : List Nat) {tail : List Token}
    (htail : Token.lead? tail ≠ some .beginGroup) {fields : List Field}
    (hvalid : ∀ field ∈ fields, field.Valid types version)
    (hgroups : ∀ field ∈ fields, field.isGroup = true) {base : Nat}
    (hlength : (wrapped order starts base fields).length ≤ maxCount) (index : Nat) :
    Ends (fun size _ listen =>
      groups listen (zeros size) index (recount (wrapped order starts base fields) ++ tail))
      (fields.all (Field.isWalkable order)) := by
  induction fields generalizing base index with
  | nil =>
    rw [wrapped_nil]
    exact .congr (fun size _ listen => groups_of_lead?_ne listen (zeros size) index htail)
      (.pure index)
  | cons field rest ih =>
    have hkind := hgroups field List.mem_cons_self
    have hfield := hvalid field List.mem_cons_self
    cases field with
    | plain => cases hkind
    | data => cases hkind
    | group info dimension declared inner =>
      obtain ⟨token, last, next, innerStarts, innerBase, hrun, hwhole, -, hsignal, -, htype, -,
        hrest⟩ := exists_groupRun order starts base info dimension declared inner rest hlength
      have hothers := ih (fun other hother => hvalid other (List.mem_cons_of_mem _ hother))
        (fun other hother => hgroups other (List.mem_cons_of_mem _ hother)) hrest
      cases hfield with
      | @group _ composite members _ _ _ hdimension hlengths hcounts _ _ =>
        have hsize := resolves_dimension hdimension hlengths hcounts htype index token token last
          (recount (wrapped order innerStarts innerBase inner))
        rw [hrun, List.append_assoc, List.all_cons, Field.isWalkable]
        refine .congr (fun size _ listen =>
          groups_append listen (zeros size) index hwhole hsignal _) ?_
        have hentries : ∀ body start, Ends (fun size _ listen =>
            entries listen (zeros size) token body 0 0 0 start) true := fun body start =>
          .congr (fun _ _ listen => entries.eq_1 ..) (.pure start)
        exact .certain_ite hsize (.tellThen _ ((hentries _ _).bind hothers))

/-- Data elements that are empty end where their content would start. -/
theorem ends_data (starts : List Nat) {tail : List Token}
    (htail : Token.lead? tail ≠ some .beginVarData) {fields : List Field}
    (hvalid : ∀ field ∈ fields, field.Valid types version)
    (hdata : ∀ field ∈ fields, field.isData = true) {base : Nat}
    (hlength : (wrapped order starts base fields).length ≤ maxCount) (index : Nat) :
    Ends (fun size _ listen =>
      data listen (zeros size) index (recount (wrapped order starts base fields) ++ tail))
      (fields.all (Field.isWalkable order)) := by
  induction fields generalizing base index with
  | nil =>
    rw [wrapped_nil]
    exact .congr (fun size _ listen => data_of_lead?_ne listen (zeros size) index htail)
      (.pure index)
  | cons field rest ih =>
    have hkind := hdata field List.mem_cons_self
    have hfield := hvalid field List.mem_cons_self
    obtain ⟨token, last, next, hrun, hwhole, hsignal, -, -, hrest⟩ :=
      exists_fieldRun order starts base field rest hlength
    have hothers := ih (fun other hother => hvalid other (List.mem_cons_of_mem _ hother))
      (fun other hother => hdata other (List.mem_cons_of_mem _ hother)) hrest
    cases field with
    | plain => cases hkind
    | group => cases hkind
    | data info type =>
      rw [body] at hrun hwhole
      rw [hrun, List.append_assoc, List.all_cons]
      refine .congr (fun size _ listen => data_append listen (zeros size) index hwhole hsignal _) ?_
      cases hfield with
      | @data _ composite members _ _ _ hmeasures hcontent =>
        rw [DataType.asVarData_composite]
        obtain ⟨content, hcontent, -⟩ := DataType.isVariable_content hcontent
        obtain ⟨length, hmeasured, -⟩ := hmeasures.freed
        obtain ⟨lengthToken, hlengthToken, hprimitive, -, hread⟩ := exists_found_composite order
          (Option.isSome_of_eq_some hmeasured) info.computedOffset info composite
        obtain ⟨contentToken, hcontentToken, -, hplace, -⟩ := exists_found_composite order
          (Option.isSome_of_eq_some hcontent) info.computedOffset info composite
        have hwalkable : Field.isWalkable order
            (.data info (.composite composite (members.map .freed))) =
              (lengthToken.isReadable && contentToken.hasPlace) := by
          simp [Field.isWalkable, Field.findsAll, DataType.composite?, hread, hplace]
        rw [member_append hlengthToken, member_append hcontentToken, hwalkable, Bool.and_assoc]
        simp only [length_zeros]
        refine .certain_ite (resolves_readMember index hprimitive) ?_
        refine .certain_some (resolves_toLength "length") ?_
        refine .certain_some (.pure contentToken) ?_
        refine .certain_ite (resolves_offset contentToken) ?_
        exact .room _ _ (.tellThen _ (hothers _))

theorem ends_inside {starts : List Nat} {base : Nat} {fields : List Field} {last : List Token}
    (hvalid : ∀ field ∈ fields, field.Valid types version) (hsiblings : Field.Siblings fields)
    (hlength : (wrapped order starts base fields).length ≤ maxCount) (hlast : Stops last)
    (index start : Nat) :
    Ends (fun size _ listen => inside listen (zeros size) index (.ok start)
      (recount (wrapped order starts base fields) ++ last))
      (fields.all (Field.isWalkable order)) := by
  obtain ⟨second, third, hsplit⟩ := exists_split order starts hsiblings hlength last
  have hplains := ends_fields order starts index (hsplit.lead?_groups hlast)
    (fun field hfield => (List.mem_filter.mp hfield).2) hsplit.plains
  have hgroups := ends_groups starts (hsplit.lead?_data hlast.2.1 (by decide))
    (fun field hfield => hvalid field (List.mem_filter.mp hfield).1)
    (fun field hfield => (List.mem_filter.mp hfield).2) hsplit.groups start
  have hdata := ends_data starts hlast.2.2
    (fun field hfield => hvalid field (List.mem_filter.mp hfield).1)
    (fun field hfield => (List.mem_filter.mp hfield).2) hsplit.data
  have hall := congrArg (List.all · (Field.isWalkable order)) hsiblings.eq_append
  simp only [List.all_append] at hall
  unfold inside
  rw [hsplit.skip_fields hlast, hsplit.skip_groups hlast, hsplit.run, hall]
  exact hplains.bind fun _ => .certain_some (.pure start) (hgroups.bind hdata)

theorem ends_message {message : Message} (hrow : Field.Row types version message.fields)
    (hlength : (messageTokens order message).length ≤ maxCount) (offset blockLength : Nat) :
    Ends (fun size _ listen => Walk.message listen (zeros size) offset blockLength
      (messageTokens order message)) (message.fields.all (Field.isWalkable order)) := by
  obtain ⟨token, last, -, -, -, -, -, hstops, hinside, hwalk⟩ :=
    exists_messageWalk hrow.siblings hlength offset blockLength
  have hfields := ends_inside hrow.valid hrow.siblings hinside hstops offset
    (offset + blockLength)
  refine .congr (fun size _ listen => hwalk (zeros size) listen) (.tellThen _ ?_)
  rw [← Bool.and_true (message.fields.all _)]
  exact hfields.bind fun next => .tellThen _ (.pure next)

end

/-- A message of an accepted schema that holds nothing. If everything in it can
be gone to, the walk ends in every buffer of zeros from some size on, whoever
listens; if not, it ends in none. Where the members found by name are integers,
only what is of variable length keeps a walk from what comes behind it. -/
theorem message_zeros {document : String} {policy : Policy} {schema : Schema} {message : Message}
    (hparse : Schema.parse document policy = .ok schema)
    (hmessage : message ∈ schema.messages.values)
    (hlength : (messageTokens schema.byteOrder message).length ≤ maxCount)
    (offset blockLength : Nat) :
    (Field.everywhere Field.isSteady message.fields = true →
      message.fields.all (Field.isNumbered schema.byteOrder) = true →
      message.fields.all (Field.isWalkable schema.byteOrder) = true) ∧
    (message.fields.all (Field.isWalkable schema.byteOrder) = true →
      ∃ least, ∀ size, least ≤ size → ∀ {σ : Type} (listen : Listener σ), Willing listen →
        ∀ state, ∃ stop, ((Walk.message listen (zeros size) offset blockLength
          (messageTokens schema.byteOrder message)).run.run state).1 = .ok stop) ∧
    (message.fields.all (Field.isWalkable schema.byteOrder) = false →
      ∀ (size : Nat) {σ : Type} (listen : Listener σ), Willing listen → ∀ state, ∃ error,
        ((Walk.message listen (zeros size) offset blockLength
          (messageTokens schema.byteOrder message)).run.run state).1 = .error error) := by
  have hvalid := Schema.valid_of_parse hparse
  have hends := ends_message (hvalid.message hmessage).row hlength offset blockLength
  refine ⟨fun hsteady => hvalid.walkable hmessage hsteady, fun hwalkable => ?_,
    fun hlost size σ listen hwilling state => ?_⟩
  · rw [hwalkable] at hends
    exact hends.run
  · rw [hlost] at hends
    exact hends.not_run size hwilling state

def isCounted (kind : ByteOrder → List Field → Bool) (pair : Schema × Message) : Bool :=
  (messageTokens pair.1.byteOrder pair.2).length ≤ maxCount &&
    kind pair.1.byteOrder pair.2.fields

def isPlaced (order : ByteOrder) (fields : List Field) : Bool :=
  Field.everywhere Field.isSteady fields && fields.all (Field.isNumbered order)

theorem isCounted_orders : (onlyMessage? orders).any (isCounted isPlaced) = true := by
  rw [onlyMessage?, orders, Schema.parse_withHeader String.toList_ofList String.toList_ofList]
  decide +kernel

theorem message_zeros_orders :
    ∃ schema message, Schema.parse orders {} = .ok schema ∧ message ∈ schema.messages.values ∧
      (messageTokens schema.byteOrder message).length ≤ maxCount ∧
      Field.everywhere Field.isSteady message.fields = true ∧
      message.fields.all (Field.isNumbered schema.byteOrder) = true ∧
      ∃ least, ∀ size, least ≤ size → ∀ {σ : Type} (listen : Listener σ), Willing listen →
        ∀ state, ∃ stop, ((Walk.message listen (zeros size) 0 message.blockLength.toNat
          (messageTokens schema.byteOrder message)).run.run state).1 = .ok stop := by
  obtain ⟨schema, message, hparse, hmessage, hcounted⟩ := exists_of_onlyMessage? isCounted_orders
  simp only [isCounted, isPlaced, Bool.and_eq_true, decide_eq_true_eq] at hcounted
  obtain ⟨hlength, hsteady, hnumbered⟩ := hcounted
  obtain ⟨hwalkable, hends, -⟩ := message_zeros hparse hmessage hlength 0 message.blockLength.toNat
  exact ⟨schema, message, hparse, hmessage, hlength, hsteady, hnumbered,
    hends (hwalkable hsteady hnumbered)⟩

/-- A number behind a text of variable length. -/
def lost : String :=
  Schema.withHeader "<messageSchema package='p' id='7'><types>"
    "<type name='Text' primitiveType='char' variableLength='true'/></types>
    <message name='M' id='1'><field name='t' id='2' type='Text'/>
    <field name='x' id='3' type='uint8'/></message></messageSchema>"

theorem isCounted_lost : (onlyMessage? lost).any
    (isCounted fun order fields => !fields.all (Field.isWalkable order)) = true := by
  rw [onlyMessage?, lost, Schema.parse_withHeader String.toList_ofList String.toList_ofList]
  decide +kernel

/-- The schema is accepted, but the number is in no buffer of zeros. -/
theorem lost_zeros :
    ∃ schema message, Schema.parse lost {} = .ok schema ∧ message ∈ schema.messages.values ∧
      (messageTokens schema.byteOrder message).length ≤ maxCount ∧
      ∀ (size : Nat) {σ : Type} (listen : Listener σ), Willing listen → ∀ state, ∃ error,
        ((Walk.message listen (zeros size) 0 message.blockLength.toNat
          (messageTokens schema.byteOrder message)).run.run state).1 = .error error := by
  obtain ⟨schema, message, hparse, hmessage, hcounted⟩ := exists_of_onlyMessage? isCounted_lost
  simp only [isCounted, Bool.and_eq_true, decide_eq_true_eq, Bool.not_eq_true'] at hcounted
  obtain ⟨hlength, hlost⟩ := hcounted
  have hends := ends_message ((Schema.valid_of_parse hparse).message hmessage).row hlength 0
    message.blockLength.toNat
  rw [hlost] at hends
  exact ⟨schema, message, hparse, hmessage, hlength, fun size σ listen hwilling state =>
    hends.not_run size hwilling state⟩

end Walk
end SimpleBinary
