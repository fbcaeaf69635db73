import SimpleBinary.Proofs.Ir.Composites
import SimpleBinary.Proofs.Walk.Simple

/-! Members looked up by name in the run of their composite. The run is searched
through every depth, so a member is what is found only if nothing in front of
it has an encoding of that name inside. -/
namespace SimpleBinary

namespace DataType

mutual

/-- Whether an encoding of a name stands in a type, at any depth. -/
def mentions (name : String) : DataType → Bool
  | .encoded info _ => info.name = name
  | .composite _ members => anyMentions name members
  | .enum .. => false
  | .set .. => false

def anyMentions (name : String) : List DataType → Bool
  | [] => false
  | member :: rest => member.mentions name || anyMentions name rest

end

/-- Whether the first encoding of a name, at any depth, is a member itself. -/
def leadsTo (name : String) : List DataType → Bool
  | [] => false
  | member :: rest => if member.mentions name then member.encoded?.isSome else leadsTo name rest

variable {name : String} {members : List DataType} {type : EncodedType}

theorem exists_memberAt? (h : encodedMember? members name = some type) (offset : Int) :
    ∃ place info, memberAt? name offset members = some (place, .encoded info type) ∧
      info.name = name := by
  unfold encodedMember? member? at h
  induction members generalizing offset with
  | nil => cases h
  | cons member rest ih =>
    rw [memberAt?]
    by_cases hname : member.name = name
    · rw [List.find?_cons_of_pos (by simp [hname])] at h
      rw [if_pos hname]
      cases member with
      | encoded info other =>
        cases h
        exact ⟨_, info, rfl, hname⟩
      | composite => cases h
      | enum => cases h
      | set => cases h
    · rw [List.find?_cons_of_neg (by simp [hname])] at h
      rw [if_neg hname]
      exact ih h _

end DataType

def Token.encodes (name : String) (token : Token) : Bool :=
  token.signal = .encoding && token.name = name

namespace Generate
open DataType (mentions anyMentions leadsTo memberAt? encodedMember?)

variable {name : String}

theorem exists_encodingToken (order : ByteOrder) {members : List DataType}
    (h : (encodedMember? members name).isSome = true) (offset : Int) :
    ∃ token ∈ memberTokens order offset members, token.signal = .encoding ∧ token.name = name := by
  induction members generalizing offset with
  | nil => cases h
  | cons member rest ih =>
    rw [memberTokens_cons]
    unfold encodedMember? DataType.member? at h ih
    by_cases hname : member.name = name
    · rw [List.find?_cons_of_pos (by simp [hname])] at h
      cases member with
      | encoded info type =>
        rw [typeTokens]
        exact ⟨_, List.mem_cons_self, rfl, hname⟩
      | composite => cases h
      | enum => cases h
      | set => cases h
    · rw [List.find?_cons_of_neg (by simp [hname])] at h
      obtain ⟨token, htoken, hkind⟩ := ih h (member.start offset + member.encodedLength)
      exact ⟨token, List.mem_append_right _ htoken, hkind⟩

theorem exists_found (order : ByteOrder) {members : List DataType}
    (h : (encodedMember? members name).isSome = true) (offset : Int)
    (field : Option FieldInfo) (info : TypeInfo) :
    ∃ token, (Token.recount (typeTokens order offset field (.composite info members))).find?
      (fun token => token.signal = .encoding && token.name = name) = some token := by
  obtain ⟨token, htoken, hsignal, hname⟩ := exists_encodingToken order h 0
  have hinside : ((typeTokens order offset field (.composite info members)).find?
      (fun token => token.signal = .encoding && token.name = name)).isSome = true := by
    rw [List.find?_isSome, typeTokens, bracketed]
    exact ⟨token, List.mem_append_left _ (List.mem_cons_of_mem _ htoken), by simp [hsignal, hname]⟩
  have hcounted := Token.find?_recount (p := fun token => token.signal = .encoding &&
    token.name = name) (fun _ => rfl)
    (nested_typeTokens order (.composite info members) offset field)
  rw [← Option.isSome_map, ← hcounted, Option.isSome_map] at hinside
  exact Option.isSome_iff_exists.mp hinside

theorem encodes_namedTokens (order : ByteOrder) {signal : Signal} (hsignal : signal ≠ .encoding)
    (primitive : Primitive) (values : List NamedValue) :
    ∀ token ∈ values.map (namedToken order signal primitive), token.encodes name = false := by
  simp [namedToken, Token.encodes, hsignal]

mutual

theorem encodes_typeTokens (order : ByteOrder) : ∀ (type : DataType) (offset : Int)
    (field : Option FieldInfo), type.mentions name = false →
    ∀ token ∈ typeTokens order offset field type, token.encodes name = false
  | .encoded info type, _, _, h => by
    rw [mentions] at h
    simpa [typeTokens, encodedToken, typeToken, Token.encodes] using h
  | .composite _ members, _, _, h => by
    rw [mentions] at h
    rw [typeTokens, forall_bracketed]
    exact ⟨by simp [typeToken, Token.encodes], encodes_memberTokens order members 0 h,
      by simp [Token.encodes]⟩
  | .enum .., _, _, _ => by
    rw [typeTokens, enumTokens, forall_bracketed]
    exact ⟨by simp [typeToken, Token.encodes], encodes_namedTokens order (by simp) _ _,
      by simp [Token.encodes]⟩
  | .set .., _, _, _ => by
    rw [typeTokens, setTokens, forall_bracketed]
    exact ⟨by simp [typeToken, Token.encodes], encodes_namedTokens order (by simp) _ _,
      by simp [Token.encodes]⟩

theorem encodes_memberTokens (order : ByteOrder) : ∀ (members : List DataType) (offset : Int),
    anyMentions name members = false →
    ∀ token ∈ memberTokens order offset members, token.encodes name = false
  | [], _, _ => by simp [memberTokens]
  | member :: rest, _, h => by
    rw [anyMentions, Bool.or_eq_false_iff] at h
    simp only [memberTokens_cons, List.mem_append, or_imp, forall_and]
    exact ⟨encodes_typeTokens order member _ none h.1, encodes_memberTokens order rest _ h.2⟩

end

theorem find?_eq_none_of_mentions (order : ByteOrder) {type : DataType} (offset : Int)
    (field : Option FieldInfo) (h : type.mentions name = false) :
    (typeTokens order offset field type).find? (Token.encodes name) = none := by
  rw [List.find?_eq_none]
  intro token htoken
  simp [encodes_typeTokens order type offset field h token htoken]

theorem find?_leading (order : ByteOrder) {members : List DataType} {type : EncodedType}
    (hlead : leadsTo name members = true) (h : encodedMember? members name = some type)
    (offset : Int) :
    ∃ place info, memberAt? name offset members = some (place, .encoded info type) ∧
      (memberTokens order offset members).find? (Token.encodes name) =
        some (encodedToken order info type (DataType.encoded info type).encodedLength place
          none) := by
  induction members generalizing offset with
  | nil => cases hlead
  | cons member rest ih =>
    rw [memberAt?, memberTokens_cons, List.find?_append]
    rw [leadsTo] at hlead
    unfold encodedMember? DataType.member? at h ih
    by_cases hname : member.name = name
    · rw [List.find?_cons_of_pos (by simp [hname])] at h
      rw [if_pos hname]
      cases member with
      | encoded info other =>
        cases h
        refine ⟨_, info, rfl, ?_⟩
        rw [typeTokens, List.find?_cons_of_pos]
        · rfl
        · exact Bool.and_eq_true_iff.mpr ⟨rfl, decide_eq_true hname⟩
      | composite => cases h
      | enum => cases h
      | set => cases h
    · -- what mentions the name and is no such member would be found first
      have hother : member.mentions name = false := by
        by_cases hmentions : member.mentions name = true
        · rw [if_pos hmentions] at hlead
          cases member with
          | encoded info other =>
            rw [mentions, decide_eq_true_eq] at hmentions
            exact absurd hmentions hname
          | composite => cases hlead
          | enum => cases hlead
          | set => cases hlead
        · simpa using hmentions
      rw [List.find?_cons_of_neg (by simp [hname])] at h
      rw [if_neg (by simp [hother])] at hlead
      rw [if_neg hname, find?_eq_none_of_mentions order _ none hother, Option.none_or]
      exact ih hlead h _

/-- What is found by name in the run of a composite is inside it, and is the same
whether counted or not. -/
theorem find?_composite (order : ByteOrder) (name : String) (members : List DataType)
    (offset : Int) (field : Option FieldInfo) (composite : TypeInfo) :
    ((Token.recount (typeTokens order offset field (.composite composite members))).find?
        (Token.encodes name)).map Token.uncounted =
      ((memberTokens order 0 members).find? (Token.encodes name)).map Token.uncounted := by
  rw [Token.find?_recount (fun _ => rfl) (nested_typeTokens order _ offset field), typeTokens,
    bracketed, List.cons_append, List.find?_cons_of_neg (by simp [typeToken, Token.encodes]),
    List.find?_append, List.find?_cons_of_neg (by simp [Token.encodes]), List.find?_nil,
    Option.or_none]

theorem exists_leading (order : ByteOrder) {members : List DataType} {type : EncodedType}
    (hlead : leadsTo name members = true) (h : encodedMember? members name = some type)
    (offset : Int) (field : Option FieldInfo) (composite : TypeInfo) :
    ∃ place info token, memberAt? name 0 members = some (place, .encoded info type) ∧
      (Token.recount (typeTokens order offset field (.composite composite members))).find?
        (Token.encodes name) = some token ∧
      token.offset = Int32.ofInt place ∧ token.encoding.primitive = some type.primitive ∧
      token.encoding.byteOrder = order := by
  obtain ⟨place, info, hat, hfind⟩ := find?_leading order hlead h 0
  have hcounted := find?_composite order name members offset field composite
  rw [hfind, Option.map_some] at hcounted
  obtain ⟨token, htoken, hsame⟩ := Option.map_eq_some_iff.mp hcounted
  refine ⟨place, info, token, hat, htoken, ?_, ?_, ?_⟩
  · exact congrArg Token.offset hsame
  · exact congrArg (·.encoding.primitive) hsame
  · exact congrArg (·.encoding.byteOrder) hsame

theorem forall_namedTokens {P : Token → Prop} {order : ByteOrder} {signal : Signal}
    {primitive : Primitive} (h : ∀ named, P (namedToken order signal primitive named))
    (values : List NamedValue) :
    ∀ token ∈ values.map (namedToken order signal primitive), P token := by
  simpa using fun named _ => h named

mutual

theorem primitive_typeTokens (order : ByteOrder) : ∀ (type : DataType) (offset : Int)
    (field : Option FieldInfo), ∀ token ∈ typeTokens order offset field type,
    token.signal = .encoding → token.encoding.primitive.isSome = true
  | .encoded info type, _, _ => by
    simp [typeTokens, encodedToken, typeToken]
  | .composite _ members, _, _ => by
    rw [typeTokens, forall_bracketed]
    exact ⟨nofun, primitive_memberTokens order members 0, nofun⟩
  | .enum .., _, _ => by
    rw [typeTokens, enumTokens, forall_bracketed]
    exact ⟨nofun, forall_namedTokens (fun _ => nofun) _, nofun⟩
  | .set .., _, _ => by
    rw [typeTokens, setTokens, forall_bracketed]
    exact ⟨nofun, forall_namedTokens (fun _ => nofun) _, nofun⟩

theorem primitive_memberTokens (order : ByteOrder) : ∀ (members : List DataType) (offset : Int),
    ∀ token ∈ memberTokens order offset members,
    token.signal = .encoding → token.encoding.primitive.isSome = true
  | [], _ => by simp [memberTokens]
  | member :: rest, _ => by
    simp only [memberTokens_cons, List.mem_append, or_imp, forall_and]
    exact ⟨primitive_typeTokens order member _ none, primitive_memberTokens order rest _⟩

end

mutual

/-- Nothing of fixed length has a part in front of its start. -/
theorem offset_typeTokens (order : ByteOrder) : ∀ (type : DataType) (offset : Int)
    (field : Option FieldInfo), type.Valid → type.isVariable = false → IsPlace offset →
    ∀ token ∈ typeTokens order offset field type, 0 ≤ token.offset.toInt
  | .encoded info type, _, _, _, _, hoffset => by
    have hplace := hoffset.toInt_ofInt.symm ▸ hoffset.1
    simpa [typeTokens, encodedToken, typeToken] using hplace
  | .composite _ members, _, _, .composite _ hmembers _ hspaced, hfixed, hoffset => by
    have hplace := hoffset.toInt_ofInt.symm ▸ hoffset.1
    rw [DataType.isVariable] at hfixed
    rw [typeTokens, forall_bracketed]
    exact ⟨hplace, offset_memberTokens order members 0 ⟨hmembers, hfixed, hspaced, by decide⟩,
      hplace⟩
  | .enum .., _, _, _, _, hoffset => by
    have hplace := hoffset.toInt_ofInt.symm ▸ hoffset.1
    rw [typeTokens, enumTokens, forall_bracketed]
    exact ⟨hplace, forall_namedTokens (fun _ => Int.le_refl 0) _, hplace⟩
  | .set .., _, _, _, _, hoffset => by
    have hplace := hoffset.toInt_ofInt.symm ▸ hoffset.1
    rw [typeTokens, setTokens, forall_bracketed]
    exact ⟨hplace, forall_namedTokens (fun _ => Int.le_refl 0) _, hplace⟩

theorem offset_memberTokens (order : ByteOrder) : ∀ (members : List DataType) (offset : Int),
    DataType.Placed offset members →
    ∀ token ∈ memberTokens order offset members, 0 ≤ token.offset.toInt
  | [], _, _ => by simp [memberTokens]
  | member :: rest, offset, h => by
    obtain ⟨-, hstart, -, hrest⟩ := h.cons
    have hfixed := h.fixed
    rw [DataType.anyVariable, Bool.or_eq_false_iff] at hfixed
    simp only [memberTokens_cons, List.mem_append, or_imp, forall_and]
    exact ⟨offset_typeTokens order member _ none (h.valid member List.mem_cons_self) hfixed.1
      hstart, offset_memberTokens order rest _ hrest⟩

end

end Generate
end SimpleBinary
