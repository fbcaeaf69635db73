import SimpleBinary.Ir.Generate
import SimpleBinary.Proofs.Token.Mirrored

/-! The runs of a schema, said by what is inside what: an element is a bracket
around its inside, and points at a sibling from the start. Such runs are nested
and each end repeats its begin, whatever the schema. -/
namespace SimpleBinary.Generate
open Token (Nested Mirrored)

/-- An end that differs from its begin in the signal only. -/
def bracketed (opening : Token) (closing : Signal) (inner : List Token) : List Token :=
  opening :: inner ++ [{ opening with signal := closing }]

def enumTokens (order : ByteOrder) (info : TypeInfo) (type : EnumType) (offset : Int)
    (field : Option FieldInfo) : List Token :=
  let nullValue :=
    if info.presence = .optional then some (type.nullValue.getD type.encoding.nullValue) else none
  let opening := typeToken .beginEnum info offset type.encoding.size field
    { primitive := type.encoding, byteOrder := order, presence := info.presence, nullValue,
      semanticType := semanticType info field }
  bracketed opening .endEnum (type.values.map (namedToken order .validValue type.encoding))

def setTokens (order : ByteOrder) (info : TypeInfo) (type : SetType) (offset : Int)
    (field : Option FieldInfo) : List Token :=
  let opening := typeToken .beginSet info offset type.encoding.size field
    { primitive := type.encoding, byteOrder := order, semanticType := semanticType info field }
  bracketed opening .endSet (type.choices.map (namedToken order .choice type.encoding))

mutual

def typeTokens (order : ByteOrder) (offset : Int) (field : Option FieldInfo) :
    DataType → List Token
  | .encoded info type =>
    [encodedToken order info type (DataType.encoded info type).encodedLength offset field]
  | .composite info members =>
    let opening := typeToken .beginComposite info offset
      (DataType.composite info members).encodedLength field
      { semanticType := semanticType info field }
    bracketed opening .endComposite (memberTokens order 0 members)
  | .enum info type => enumTokens order info type offset field
  | .set info type => setTokens order info type offset field

def memberTokens (order : ByteOrder) (offset : Int) : List DataType → List Token
  | [] => []
  | member :: rest =>
    typeTokens order (member.start offset) none member ++
      memberTokens order (member.start offset + member.encodedLength) rest

end

def opens : Field → Signal
  | .plain .. => .beginField
  | .group .. => .beginGroup
  | .data .. => .beginVarData

def closes : Field → Signal
  | .plain .. => .endField
  | .group .. => .endGroup
  | .data .. => .endVarData

theorem closing?_opens (field : Field) : (opens field).closing? = some (closes field) := by
  cases field <;> rfl

def reference (starts : List Nat) (field : Field) : Int32 :=
  match (link field.info).bind (starts[·]?) with
  | some index => Int32.ofNat index
  | none => invalidId

/-- A field around its inside, pointing at the begin token of its link. -/
def wrap (starts : List Nat) (field : Field) (body : List Token) : List Token :=
  bracketed (fieldToken (opens field) field.info (reference starts field)) (closes field) body

/-- The indices of the begin tokens of fields with these insides, where the
first stands at `base`. -/
def begins (base : Nat) : List (List Token) → List Nat
  | [] => []
  | body :: rest => base :: begins (base + body.length + 2) rest

def wrapAll (base : Nat) (fields : List Field) (bodies : List (List Token)) : List Token :=
  (List.zipWith (wrap (begins base bodies)) fields bodies).flatten

mutual

def body (order : ByteOrder) (base : Nat) : Field → List Token
  | .plain info type => typeTokens order info.computedOffset info type
  | .data info type => typeTokens order info.computedOffset info type
  | .group info dimension _ fields =>
    let head := typeTokens order 0 info dimension
    let inner := base + head.length
    head ++ wrapAll inner fields (bodies order inner fields)

def bodies (order : ByteOrder) (base : Nat) : List Field → List (List Token)
  | [] => []
  | field :: rest =>
    let first := body order (base + 1) field
    first :: bodies order (base + first.length + 2) rest

end

theorem mirrored_bracketed {opening : Token} {closing : Signal} {inner : List Token}
    (hclosing : opening.signal.closing? = some closing) (hinner : Mirrored inner) :
    Mirrored (bracketed opening closing inner) :=
  .bracket hclosing hinner .nil

theorem nested_bracketed {opening : Token} {closing : Signal} {inner : List Token}
    (hclosing : opening.signal.closing? = some closing) (hinner : Nested inner) :
    Nested (bracketed opening closing inner) :=
  .bracketed hclosing hinner

theorem mirrored_namedTokens (order : ByteOrder) {signal : Signal}
    (hbegin : signal.isBegin = false) (hend : signal.isEnd = false) (primitive : Primitive)
    (values : List NamedValue) : Mirrored (values.map (namedToken order signal primitive)) := by
  induction values with
  | nil => exact .nil
  | cons named rest ih => exact .leaf hbegin hend ih

theorem nested_namedTokens (order : ByteOrder) {signal : Signal} (hbegin : signal.isBegin = false)
    (hend : signal.isEnd = false) (primitive : Primitive) (values : List NamedValue) :
    Nested (values.map (namedToken order signal primitive)) :=
  (mirrored_namedTokens order hbegin hend primitive values).nested

theorem memberTokens_cons (order : ByteOrder) (offset : Int) (member : DataType)
    (rest : List DataType) :
    memberTokens order offset (member :: rest) =
      typeTokens order (member.start offset) none member ++
        memberTokens order (member.start offset + member.encodedLength) rest := by
  rw [memberTokens]

mutual

theorem mirrored_typeTokens (order : ByteOrder) : ∀ (type : DataType) (offset : Int)
    (field : Option FieldInfo), Mirrored (typeTokens order offset field type)
  | .encoded .., _, _ => by
    unfold typeTokens
    exact .singleton rfl rfl
  | .composite _ members, _, _ => by
    unfold typeTokens
    exact mirrored_bracketed rfl (mirrored_memberTokens order members 0)
  | .enum .., _, _ => by
    unfold typeTokens
    exact mirrored_bracketed rfl (mirrored_namedTokens order rfl rfl _ _)
  | .set .., _, _ => by
    unfold typeTokens
    exact mirrored_bracketed rfl (mirrored_namedTokens order rfl rfl _ _)

theorem mirrored_memberTokens (order : ByteOrder) : ∀ (members : List DataType) (offset : Int),
    Mirrored (memberTokens order offset members)
  | [], _ => by
    unfold memberTokens
    exact .nil
  | member :: rest, _ => by
    unfold memberTokens
    exact (mirrored_typeTokens order member _ none).append (mirrored_memberTokens order rest _)

end

theorem nested_typeTokens (order : ByteOrder) (type : DataType) (offset : Int)
    (field : Option FieldInfo) : Nested (typeTokens order offset field type) :=
  (mirrored_typeTokens order type offset field).nested

theorem nested_memberTokens (order : ByteOrder) (members : List DataType) (offset : Int) :
    Nested (memberTokens order offset members) :=
  (mirrored_memberTokens order members offset).nested

def wrapped (order : ByteOrder) (starts : List Nat) (base : Nat) (fields : List Field) :
    List Token :=
  (List.zipWith (wrap starts) fields (bodies order base fields)).flatten

theorem wrapAll_bodies (order : ByteOrder) (base : Nat) (fields : List Field) :
    wrapAll base fields (bodies order base fields) =
      wrapped order (begins base (bodies order base fields)) base fields :=
  rfl

@[simp] theorem wrapped_nil (order : ByteOrder) (starts : List Nat) (base : Nat) :
    wrapped order starts base [] = [] := by
  unfold wrapped
  rfl

theorem wrapped_cons (order : ByteOrder) (starts : List Nat) (base : Nat) (field : Field)
    (rest : List Field) :
    wrapped order starts base (field :: rest) =
      wrap starts field (body order (base + 1) field) ++
        wrapped order starts (base + (body order (base + 1) field).length + 2) rest := by
  unfold wrapped
  rw [bodies]
  rfl

mutual

theorem mirrored_body (order : ByteOrder) : ∀ (field : Field) (base : Nat),
    Mirrored (body order base field)
  | .plain info type, _ => by
    unfold body
    exact mirrored_typeTokens order type _ _
  | .data info type, _ => by
    unfold body
    exact mirrored_typeTokens order type _ _
  | .group info dimension _ fields, _ => by
    unfold body
    exact (mirrored_typeTokens order dimension _ _).append (mirrored_wrapped order fields _ _)

theorem mirrored_wrapped (order : ByteOrder) : ∀ (fields : List Field) (starts : List Nat)
    (base : Nat), Mirrored (wrapped order starts base fields)
  | [], _, _ => by
    rw [wrapped_nil]
    exact .nil
  | field :: rest, starts, base => by
    rw [wrapped_cons, wrap]
    exact (mirrored_bracketed (closing?_opens field) (mirrored_body order field _)).append
      (mirrored_wrapped order rest starts _)

end

theorem nested_body (order : ByteOrder) (field : Field) (base : Nat) :
    Nested (body order base field) :=
  (mirrored_body order field base).nested

theorem nested_wrapped (order : ByteOrder) (fields : List Field) (starts : List Nat) (base : Nat) :
    Nested (wrapped order starts base fields) :=
  (mirrored_wrapped order fields starts base).nested

theorem length_bracketed (opening : Token) (closing : Signal) (inner : List Token) :
    (bracketed opening closing inner).length = inner.length + 2 := by
  simp [bracketed]

theorem wrapped_append (order : ByteOrder) (starts : List Nat) (a b : List Field) (base : Nat) :
    wrapped order starts base (a ++ b) = wrapped order starts base a ++
      wrapped order starts (base + (wrapped order starts base a).length) b := by
  induction a generalizing base with
  | nil => simp
  | cons field rest ih =>
    have hbase : ∀ n, base + (body order (base + 1) field).length + 2 + n =
        base + ((body order (base + 1) field).length + 2 + n) := by
      intro n
      omega
    rw [List.cons_append, wrapped_cons, wrapped_cons, ih, List.append_assoc, List.length_append,
      wrap, length_bracketed, hbase]

theorem forall_bracketed {P : Token → Prop} {opening : Token} {closing : Signal}
    {inner : List Token} :
    (∀ token ∈ bracketed opening closing inner, P token) ↔
      P opening ∧ (∀ token ∈ inner, P token) ∧ P { opening with signal := closing } := by
  simp [bracketed, or_imp, forall_and]

end SimpleBinary.Generate
