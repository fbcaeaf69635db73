import SimpleBinary.Proofs.Ir.Emitted
import SimpleBinary.Proofs.Schema.Valid

/-! The tokens of a run. What holds of the tokens of every type, and of the
token of a field just when the field itself is of some kind, holds of a run just
when all its fields at every depth are of that kind. -/
namespace SimpleBinary

namespace Generate
open Token (Nested)

/-- A property of tokens that all tokens of types have, and those around a
field just when the field is of some kind. -/
structure Reflects (types : Table String DataType) (version : Int32) (order : ByteOrder)
    (P : Token → Prop) (kind : Field → Bool) : Prop where
  type : ∀ field : Field, field.Valid types version → ∀ offset,
    ∀ token ∈ typeTokens order offset (some field.info) field.typeInside, P token
  field : ∀ field : Field, field.Valid types version → ∀ refId,
    P (fieldToken (opens field) field.info refId) ∧ P (fieldToken (closes field) field.info refId) ↔
      kind field = true

section
variable {types : Table String DataType} {version : Int32} {order : ByteOrder}
  {P : Token → Prop} {kind : Field → Bool}

mutual

theorem forall_body_iff (h : Reflects types version order P kind) : ∀ (field : Field),
    field.Valid types version → ∀ base,
    kind field = true ∧ (∀ token ∈ body order base field, P token) ↔ field.throughout kind = true
  | .plain info type, hvalid, base => by
    have htokens := h.type _ hvalid info.computedOffset
    unfold body Field.throughout
    exact ⟨And.left, fun hkind => ⟨hkind, htokens⟩⟩
  | .data info type, hvalid, base => by
    have htokens := h.type _ hvalid info.computedOffset
    unfold body Field.throughout
    exact ⟨And.left, fun hkind => ⟨hkind, htokens⟩⟩
  | .group info dimension blockLength fields, hvalid, base => by
    have htokens := h.type _ hvalid 0
    have hinner : ∀ field ∈ fields, field.Valid types version := by
      cases hvalid
      assumption
    unfold body Field.throughout
    simp only [List.mem_append, or_imp, forall_and, wrapAll_bodies, Bool.and_eq_true,
      forall_wrapped_iff h fields hinner]
    exact ⟨fun hall => ⟨hall.1, hall.2.2⟩, fun hall => ⟨hall.1, htokens, hall.2⟩⟩

theorem forall_wrapped_iff (h : Reflects types version order P kind) : ∀ (fields : List Field),
    (∀ field ∈ fields, field.Valid types version) → ∀ starts base,
    (∀ token ∈ wrapped order starts base fields, P token) ↔ Field.everywhere kind fields = true
  | [], _, starts, base => by
    rw [wrapped_nil, Field.everywhere]
    simp
  | field :: rest, hvalid, starts, base => by
    have hfirst := hvalid field List.mem_cons_self
    have hbody := forall_body_iff h field hfirst (base + 1)
    have hrest := forall_wrapped_iff h rest
      (fun other hother => hvalid other (List.mem_cons_of_mem _ hother)) starts
    rw [wrapped_cons, wrap, Field.everywhere, Bool.and_eq_true, ← hbody,
      ← hrest (base + (body order (base + 1) field).length + 2),
      ← h.field field hfirst (reference starts field)]
    simp only [List.mem_append, or_imp, forall_and, forall_bracketed]
    constructor
    · rintro ⟨⟨hopens, hinner, hcloses⟩, hothers⟩
      exact ⟨⟨⟨hopens, hcloses⟩, hinner⟩, hothers⟩
    · rintro ⟨⟨⟨hopens, hcloses⟩, hinner⟩, hothers⟩
      exact ⟨⟨hopens, hinner, hcloses⟩, hothers⟩

end
end

theorem nested_messageFields (order : ByteOrder) (message : Message) :
    Nested (messageFields order message) :=
  nested_wrapped order message.fields _ _

theorem forall_messageTokens_iff {types : Table String DataType} {version : Int32}
    {order : ByteOrder} {P : Token → Prop} {kind : Field → Bool} {message : Message}
    (h : Reflects types version order P kind) (hcount : ∀ token, P token.uncounted ↔ P token)
    (hvalid : message.Valid types version)
    (hends : P (messageToken .beginMessage message) ∧ P (messageToken .endMessage message)) :
    (∀ token ∈ messageTokens order message, P token) ↔
      Field.everywhere kind message.fields = true := by
  rw [messageTokens_eq,
    Token.forall_recount hcount (nested_bracketed rfl (nested_messageFields order message)),
    forall_bracketed, messageFields, forall_wrapped_iff h _ hvalid.row.valid]
  exact ⟨fun hall => hall.2.1, fun hfields => ⟨hends.1, hfields, hends.2⟩⟩

theorem messageRun_messageTokens (order : ByteOrder) (message : Message) :
    Token.Bracketed .beginMessage (messageTokens order message) ∧
      (messageTokens order message).head?.map (·.id) = some message.id := by
  have hfields := nested_messageFields order message
  constructor
  · rw [messageTokens_eq, Token.bracketed_recount (nested_bracketed rfl hfields)]
    exact Token.bracketed_of_nested rfl hfields
  · rw [messageTokens_eq, bracketed, Token.recount_bracketed rfl hfields]
    rfl

theorem bracketed_headerTokens (order : ByteOrder) (info : TypeInfo) (members : List DataType) :
    Token.Bracketed .beginComposite
      (Token.recount (typeTokens order 0 none (.composite info members))) := by
  rw [Token.bracketed_recount (nested_typeTokens order _ 0 none), typeTokens]
  exact Token.bracketed_of_nested rfl (nested_memberTokens order members 0)

end Generate
end SimpleBinary
