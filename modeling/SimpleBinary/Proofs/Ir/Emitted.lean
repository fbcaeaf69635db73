import SimpleBinary.Proofs.Ir.Flattened

/-! A run as it is written. Whatever stands before it, an element adds its own
bracket; the links of a list are filled in once its last element is closed,
where the end that is looked for is the one that the element was given. So the
finished run is the one that is said by what is inside what. -/
namespace SimpleBinary.Generate
open Token (Nested)

mutual

theorem addType_eq (order : ByteOrder) : ∀ (type : DataType) (offset : Int)
    (field : Option FieldInfo) (tokens : List Token),
    addType order offset field tokens type = tokens ++ typeTokens order offset field type
  | .encoded .., _, _, _ => by rw [addType, typeTokens]
  | .composite _ members, _, _, tokens => by
    rw [addType, typeTokens, addMembers_eq order members, bracketed]
    simp
  | .enum .., _, _, _ => by
    rw [addType, typeTokens, addEnum, enumTokens, bracketed]
    simp
  | .set .., _, _, _ => by
    rw [addType, typeTokens, addSet, setTokens, bracketed]
    simp

theorem addMembers_eq (order : ByteOrder) : ∀ (members : List DataType) (offset : Int)
    (tokens : List Token),
    addMembers order offset tokens members = tokens ++ memberTokens order offset members
  | [], _, _ => by rw [addMembers, memberTokens, List.append_nil]
  | member :: rest, offset, tokens => by
    rw [addMembers, memberTokens, addType_eq order member, addMembers_eq order rest,
      List.append_assoc]

end

theorem headerTokens_eq (order : ByteOrder) (header : DataType) :
    headerTokens order header = Token.recount (typeTokens order 0 none header) := by
  rw [headerTokens, addType_eq, List.nil_append]

theorem modify_append_cons (change : Token → Token) (before : List Token) (token : Token)
    (after : List Token) :
    (before ++ token :: after).modify before.length change = before ++ change token :: after := by
  rw [List.modify_eq_take_drop, List.take_left, List.drop_left]
  rfl

/-- Both ends of a bracket are pointed at a token, whatever stands around it:
the end that is found is the one of this bracket. -/
theorem pointAt_bracketed {opening : Token} {closing : Signal} {inner : List Token}
    (hclosing : opening.signal.closing? = some closing) (hinner : Nested inner)
    (before after : List Token) (target : Nat) :
    pointAt before.length target (before ++ (bracketed opening closing inner ++ after)) =
      before ++ (bracketed (pointed target opening) closing inner ++ after) := by
  have hsignals : (pointed target opening).signal.closing? =
      some ({ opening with signal := closing } : Token).signal := hclosing
  have hfound : Token.findEnd (before ++ (pointed target opening :: inner ++
      { opening with signal := closing } :: after)) before.length =
        some (before.length + inner.length + 1) :=
    Token.findEnd_bracket hsignals hinner List.drop_left
  have hstop : before.length + inner.length + 1 =
      (before ++ pointed target opening :: inner).length := by
    simp [Nat.add_assoc]
  unfold pointAt bracketed
  rw [List.append_assoc, List.cons_append, modify_append_cons, List.singleton_append,
    ← List.cons_append]
  simp only [hfound]
  rw [← List.append_assoc, hstop, modify_append_cons]
  simp [pointed]

theorem wrap_nil (field : Field) (body : List Token) :
    wrap [] field body =
      bracketed (fieldToken (opens field) field.info invalidId) (closes field) body := by
  have hnone : reference [] field = invalidId := by
    unfold reference
    cases link field.info <;> rfl
  rw [wrap, hnone]

theorem length_wrap (starts : List Nat) (field : Field) (body : List Token) :
    (wrap starts field body).length = body.length + 2 :=
  length_bracketed ..

theorem linkField_wrap (starts : List Nat) (field : Field) {body : List Token}
    (hbody : Nested body) (before after : List Token) :
    linkField starts field before.length (before ++ (wrap [] field body ++ after)) =
      before ++ (wrap starts field body ++ after) := by
  unfold linkField
  rw [wrap_nil, wrap, reference]
  cases (link field.info).bind (starts[·]?) with
  | none => rfl
  | some target => exact pointAt_bracketed (closing?_opens field) hbody before after target

/-- The fields of a list are linked from left to right, those in front already
being so. -/
theorem linkFields_wrapped (order : ByteOrder) (starts : List Nat) (fields : List Field)
    (before : List Token) :
    (fields.zip (begins before.length (bodies order before.length fields))).foldl
        (fun tokens entry => linkField starts entry.1 entry.2 tokens)
        (before ++ wrapped order [] before.length fields) =
      before ++ wrapped order starts before.length fields := by
  induction fields generalizing before with
  | nil => rfl
  | cons field rest ih =>
    let inside := body order (before.length + 1) field
    have hlength : before.length + inside.length + 2 =
        (before ++ wrap starts field inside).length := by
      rw [List.length_append, length_wrap, Nat.add_assoc]
    have hrest := ih (before ++ wrap starts field inside)
    rw [← hlength] at hrest
    rw [bodies, begins, List.zip_cons_cons, List.foldl_cons, wrapped_cons, wrapped_cons,
      linkField_wrap starts field (nested_body order field _), ← List.append_assoc, hrest,
      List.append_assoc]

theorem linkFields_eq (order : ByteOrder) (tokens : List Token) (fields : List Field) :
    linkFields (begins tokens.length (bodies order tokens.length fields)) fields
        (tokens ++ wrapped order [] tokens.length fields) =
      tokens ++ wrapAll tokens.length fields (bodies order tokens.length fields) := by
  rw [linkFields, linkFields_wrapped, wrapAll_bodies]

/-- The end is made from the field once more, and differs from the begin in its
signal only. -/
theorem addSignal_around (field : Field) (tokens inside : List Token) :
    addSignal (closes field) field.info (addSignal (opens field) field.info tokens ++ inside) =
      tokens ++ wrap [] field inside := by
  have hclosing : fieldToken (closes field) field.info invalidId =
      { fieldToken (opens field) field.info invalidId with signal := closes field } := rfl
  rw [addSignal, addSignal, wrap_nil, bracketed, hclosing]
  simp

mutual

/-- A field adds its bracket, with the links inside it but none of its own. -/
theorem addField_eq (order : ByteOrder) : ∀ (field : Field) (tokens : List Token),
    addField order tokens field = tokens ++ wrap [] field (body order (tokens.length + 1) field)
  | .plain info type, tokens => by
    rw [addField, addType_eq, body]
    exact addSignal_around (.plain info type) tokens _
  | .data info type, tokens => by
    rw [addField, addType_eq, body]
    exact addSignal_around (.data info type) tokens _
  | .group info dimension blockLength fields, tokens => by
    have hbase : (addSignal .beginGroup info tokens ++ typeTokens order 0 info dimension).length =
        tokens.length + 1 + (typeTokens order 0 info dimension).length := by
      rw [addSignal, List.length_append, List.length_append, List.length_singleton]
    rw [addField, addType_eq, addEach_eq order fields, linkFields_eq, hbase, body,
      List.append_assoc]
    exact addSignal_around (.group info dimension blockLength fields) tokens _

theorem addEach_eq (order : ByteOrder) : ∀ (fields : List Field) (tokens : List Token),
    addEach order tokens fields =
      (tokens ++ wrapped order [] tokens.length fields,
        begins tokens.length (bodies order tokens.length fields))
  | [], tokens => by
    rw [addEach, wrapped_nil, List.append_nil, bodies, begins]
  | field :: rest, tokens => by
    have hlength : (tokens ++ wrap [] field (body order (tokens.length + 1) field)).length =
        tokens.length + (body order (tokens.length + 1) field).length + 2 := by
      rw [List.length_append, length_wrap, Nat.add_assoc]
    rw [addEach, addField_eq order field, addEach_eq order rest, hlength, wrapped_cons, bodies,
      begins, List.append_assoc]

end

theorem addFields_eq (order : ByteOrder) (tokens : List Token) (fields : List Field) :
    addFields order tokens fields =
      tokens ++ wrapAll tokens.length fields (bodies order tokens.length fields) := by
  rw [addFields, addEach_eq, linkFields_eq]

def messageFields (order : ByteOrder) (message : Message) : List Token :=
  wrapped order (begins 1 (bodies order 1 message.fields)) 1 message.fields

theorem messageTokens_eq (order : ByteOrder) (message : Message) :
    messageTokens order message = Token.recount
      (bracketed (messageToken .beginMessage message) .endMessage
        (messageFields order message)) := by
  rw [messageTokens, addFields_eq, wrapAll_bodies]
  rfl

end SimpleBinary.Generate
