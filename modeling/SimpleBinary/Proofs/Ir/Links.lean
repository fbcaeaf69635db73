import SimpleBinary.Proofs.Ir.Described
import SimpleBinary.Proofs.Ir.Lookup

/-! The links of a run. An element is linked to a sibling by its place in their
list, and a token by an index of its run; the two agree wherever the elements
stand, with anything inside them and whatever the links say. -/
namespace SimpleBinary

namespace Token

/-- The index behind what stands at an index, be it a bracket or a single
token. -/
def behind (run : List Token) (index : Nat) : Nat := (findEnd run index).getD index + 1

def row (run : List Token) (first : Nat) : Nat → List Nat
  | 0 => []
  | count + 1 => first :: row run (behind run first) count

theorem length_row (run : List Token) (first count : Nat) :
    (row run first count).length = count := by
  induction count generalizing first with
  | zero => rfl
  | succ count ih => simp [row, ih]

theorem findEnd_recount {run : List Token} (h : Nested run) (start : Nat) :
    findEnd (recount run) start = findEnd run start := by
  have hsignal : ∀ token, (uncounted token).signal = token.signal := fun _ => rfl
  rw [← findEnd_map hsignal, uncounted_recount h, findEnd_map hsignal]

theorem behind_recount {run : List Token} (h : Nested run) : behind (recount run) = behind run := by
  funext index
  rw [behind, findEnd_recount h, behind]

theorem row_recount {run : List Token} (h : Nested run) : row (recount run) = row run := by
  funext first count
  induction count generalizing first with
  | zero => rfl
  | succ count ih => rw [row, row, ih, behind_recount h]

theorem getElem?_recount {run : List Token} (h : Nested run) (index : Nat) :
    (recount run)[index]?.map uncounted = run[index]?.map uncounted := by
  rw [← List.getElem?_map, uncounted_recount h, List.getElem?_map]

theorem behind_bracket {run : List Token} {index : Nat} {opening closing : Token}
    {inner rest : List Token} (hclosing : opening.signal.closing? = some closing.signal)
    (hinner : Nested inner) (hrun : run.drop index = opening :: inner ++ closing :: rest) :
    behind run index = index + inner.length + 2 := by
  rw [behind, findEnd_bracket hclosing hinner hrun]
  rfl

theorem behind_leaf {run : List Token} {index : Nat} {token : Token} {rest : List Token}
    (hleaf : token.signal.isBegin = false) (hrun : run.drop index = token :: rest) :
    behind run index = index + 1 := by
  have hnone : token.signal.closing? = none := by
    rw [Signal.isBegin] at hleaf
    exact Option.not_isSome_iff_eq_none.mp (by simpa using hleaf)
  rw [behind, findEnd, hrun]
  simp only [hnone]
  rfl

end Token

namespace Field

/-- What holds of a group if it holds of all in it holds of every field. -/
theorem induct {motive : Field → Prop} (ofPlain : ∀ info type, motive (.plain info type))
    (ofGroup : ∀ info dimension blockLength fields, (∀ field ∈ fields, motive field) →
      motive (.group info dimension blockLength fields))
    (ofData : ∀ info type, motive (.data info type)) (field : Field) : motive field := by
  cases field with
  | plain info type => exact ofPlain info type
  | group info dimension blockLength fields =>
    exact ofGroup info dimension blockLength fields fun inner _ =>
      induct ofPlain ofGroup ofData inner
  | data info type => exact ofData info type

/-- The elements side by side in a run, with the index of the first: those of
the message behind its begin, those of a group behind its dimension. -/
inductive Standing (run : List Token) (fields : List Field) : Nat → List Field → Prop where
  | message : Standing run fields 1 fields
  | group {first place index : Nat} {level : List Field} {info : FieldInfo} {dimension : DataType}
      {blockLength : Int32} {inner : List Field} :
      Standing run fields first level →
      level[place]? = some (.group info dimension blockLength inner) →
      (Token.row run first level.length)[place]? = some index →
      Standing run fields (Token.behind run (index + 1)) inner

theorem Standing.congr {a b : List Token} {fields level : List Field} {first : Nat}
    (hbehind : Token.behind a = Token.behind b) (hrow : Token.row a = Token.row b)
    (h : Standing a fields first level) : Standing b fields first level := by
  induction h with
  | message => exact .message
  | group _ hgroup hindex ih =>
    rw [hbehind]
    rw [hrow] at hindex
    exact .group ih hgroup hindex

end Field

namespace Generate
open Token (Nested recount row behind findEnd)
open SimpleBinary.Field (Standing)

theorem behind_typeTokens {run : List Token} {index : Nat} {order : ByteOrder} {offset : Int}
    {field : Option FieldInfo} {type : DataType} {rest : List Token}
    (h : run.drop index = typeTokens order offset field type ++ rest) :
    behind run index = index + (typeTokens order offset field type).length := by
  have hbracket : ∀ {opening : Token} {closing : Signal} {inner : List Token},
      opening.signal.closing? = some closing → Nested inner →
      run.drop index = bracketed opening closing inner ++ rest →
      behind run index = index + (bracketed opening closing inner).length := by
    intro opening closing inner hclosing hinner hrun
    rw [length_bracketed]
    rw [bracketed, List.append_assoc, List.singleton_append] at hrun
    exact Token.behind_bracket hclosing hinner hrun
  cases type with
  | encoded info type =>
    rw [typeTokens] at h ⊢
    exact Token.behind_leaf rfl h
  | composite info members =>
    rw [typeTokens] at h ⊢
    exact hbracket rfl (nested_memberTokens order members 0) h
  | enum info type =>
    rw [typeTokens] at h ⊢
    exact hbracket rfl (nested_namedTokens order rfl rfl _ _) h
  | set info type =>
    rw [typeTokens] at h ⊢
    exact hbracket rfl (nested_namedTokens order rfl rfl _ _) h

section
variable {run : List Token} {order : ByteOrder} {starts : List Nat}

theorem findEnd_wrap {index : Nat} {field : Field} {tail : List Token}
    (h : run.drop index = wrap starts field (body order (index + 1) field) ++ tail) :
    findEnd run index = some (index + (body order (index + 1) field).length + 1) := by
  rw [wrap, bracketed, List.append_assoc] at h
  exact Token.findEnd_bracket (closing?_opens field) (nested_body order field _) h

theorem drop_inside {index : Nat} {field : Field} {inside tail : List Token}
    (h : run.drop index = wrap starts field inside ++ tail) :
    ∃ rest, run.drop (index + 1) = inside ++ rest := by
  rw [← List.drop_drop, h, wrap, bracketed, List.cons_append, List.cons_append,
    List.drop_succ_cons, List.drop_zero, List.append_assoc]
  exact ⟨_, rfl⟩

theorem drop_wrapped_cons {first : Nat} {field : Field} {rest : List Field} {tail : List Token}
    (h : run.drop first = wrapped order starts first (field :: rest) ++ tail) :
    run.drop (first + (body order (first + 1) field).length + 2) =
      wrapped order starts (first + (body order (first + 1) field).length + 2) rest ++ tail := by
  have hlength : (wrap starts field (body order (first + 1) field)).length =
      (body order (first + 1) field).length + 2 := by
    rw [wrap, length_bracketed]
  rw [Nat.add_assoc, ← hlength, ← List.drop_drop, h, wrapped_cons, List.append_assoc,
    List.drop_left, hlength, Nat.add_assoc]

theorem row_wrapped {fields : List Field} {first : Nat} {tail : List Token}
    (h : run.drop first = wrapped order starts first fields ++ tail) :
    row run first fields.length = begins first (bodies order first fields) := by
  induction fields generalizing first with
  | nil =>
    rw [bodies]
    rfl
  | cons field rest ih =>
    have hend : behind run first = first + (body order (first + 1) field).length + 2 := by
      rw [wrapped_cons, List.append_assoc] at h
      rw [behind, findEnd_wrap h]
      rfl
    rw [List.length_cons, row, hend, ih (drop_wrapped_cons h), bodies, begins]

theorem drop_element {fields : List Field} {first place index : Nat} {field : Field}
    {tail : List Token} (h : run.drop first = wrapped order starts first fields ++ tail)
    (hfield : fields[place]? = some field)
    (hindex : (row run first fields.length)[place]? = some index) :
    ∃ after, run.drop index = wrap starts field (body order (index + 1) field) ++ after := by
  rw [row_wrapped h] at hindex
  induction fields generalizing first place with
  | nil => cases hfield
  | cons head rest ih =>
    rw [bodies, begins] at hindex
    cases place with
    | zero =>
      cases hfield
      cases hindex
      rw [wrapped_cons, List.append_assoc] at h
      exact ⟨_, h⟩
    | succ place => exact ih (drop_wrapped_cons h) hfield hindex

theorem exists_element {fields : List Field} {first k : Nat} {token : Token}
    (h : (wrapped order starts first fields)[k]? = some token) :
    ∃ (place : Nat) (field : Field) (index j : Nat), fields[place]? = some field ∧
      (begins first (bodies order first fields))[place]? = some index ∧ first + k = index + j ∧
      (wrap starts field (body order (index + 1) field))[j]? = some token := by
  induction fields generalizing first k with
  | nil =>
    rw [wrapped_nil] at h
    cases h
  | cons field rest ih =>
    rw [wrapped_cons, List.getElem?_append] at h
    rw [bodies, begins]
    split at h
    · exact ⟨0, field, first, k, rfl, rfl, rfl, h⟩
    · next hlong =>
      rw [wrap, length_bracketed] at h hlong
      obtain ⟨place, found, index, j, hfound, hindex, hsum, htoken⟩ := ih h
      refine ⟨place + 1, found, index, j, hfound, hindex, ?_, htoken⟩
      omega

end

def rawTokens (order : ByteOrder) (message : Message) : List Token :=
  bracketed (messageToken .beginMessage message) .endMessage (messageFields order message)

theorem nested_rawTokens (order : ByteOrder) (message : Message) :
    Nested (rawTokens order message) :=
  nested_bracketed rfl (nested_messageFields order message)

theorem messageTokens_eq_recount (order : ByteOrder) (message : Message) :
    messageTokens order message = recount (rawTokens order message) :=
  messageTokens_eq order message

section
variable {order : ByteOrder} {message : Message} {first : Nat} {level : List Field}

theorem drop_of_standing (h : Standing (rawTokens order message) message.fields first level) :
    ∃ tail, (rawTokens order message).drop first =
      wrapped order (begins first (bodies order first level)) first level ++ tail := by
  induction h with
  | message => exact ⟨_, rfl⟩
  | @group first place index level info dimension blockLength inner _ hgroup hindex ih =>
    obtain ⟨tail, hdrop⟩ := ih
    obtain ⟨after, helement⟩ := drop_element hdrop hgroup hindex
    obtain ⟨rest, hinside⟩ := drop_inside helement
    rw [body, List.append_assoc, wrapAll_bodies] at hinside
    rw [behind_typeTokens hinside, ← List.drop_drop, hinside, List.drop_left]
    exact ⟨rest, rfl⟩

def EndsElement (run : List Token) (fields : List Field) (k : Nat) : Prop :=
  ∃ (first place index : Nat) (level : List Field) (field : Field),
    Standing run fields first level ∧ level[place]? = some field ∧
      (row run first level.length)[place]? = some index ∧ (k = index ∨ findEnd run index = some k)

mutual

theorem refId_typeTokens (order : ByteOrder) : ∀ (type : DataType) (offset : Int)
    (field : Option FieldInfo), ∀ token ∈ typeTokens order offset field type,
    token.refId = invalidId
  | .encoded .., _, _ => by
    simp [typeTokens, encodedToken, typeToken]
  | .composite _ members, _, _ => by
    rw [typeTokens, forall_bracketed]
    exact ⟨rfl, refId_memberTokens order members 0, rfl⟩
  | .enum .., _, _ => by
    rw [typeTokens, enumTokens, forall_bracketed]
    exact ⟨rfl, forall_namedTokens (fun _ => rfl) _, rfl⟩
  | .set .., _, _ => by
    rw [typeTokens, setTokens, forall_bracketed]
    exact ⟨rfl, forall_namedTokens (fun _ => rfl) _, rfl⟩

theorem refId_memberTokens (order : ByteOrder) : ∀ (members : List DataType) (offset : Int),
    ∀ token ∈ memberTokens order offset members, token.refId = invalidId
  | [], _ => by simp [memberTokens]
  | member :: rest, _ => by
    simp only [memberTokens_cons, List.mem_append, or_imp, forall_and]
    exact ⟨refId_typeTokens order member _ none, refId_memberTokens order rest _⟩

end

theorem endsElement_of_wrap {field : Field} {place index j : Nat} {token : Token}
    (hlevel : Standing (rawTokens order message) message.fields first level)
    (hfield : level[place]? = some field)
    (hindex : (row (rawTokens order message) first level.length)[place]? = some index)
    (htoken : (wrap (begins first (bodies order first level)) field
      (body order (index + 1) field))[j]? = some token)
    (hbody : ∀ {i : Nat}, (body order (index + 1) field)[i]? = some token →
      token.refId = invalidId ∨
        EndsElement (rawTokens order message) message.fields (index + 1 + i)) :
    token.refId = invalidId ∨ EndsElement (rawTokens order message) message.fields (index + j) := by
  obtain ⟨tail, hdrop⟩ := drop_of_standing hlevel
  obtain ⟨after, helement⟩ := drop_element hdrop hfield hindex
  rw [wrap, bracketed] at htoken
  rcases Token.getElem?_bracket htoken with ⟨rfl, -⟩ | ⟨i, rfl, hinside⟩ | ⟨rfl, -⟩ | ⟨_, -, hnil⟩
  · exact .inr ⟨first, place, index, level, field, hlevel, hfield, hindex, .inl rfl⟩
  · rw [Nat.add_comm i, ← Nat.add_assoc]
    exact hbody hinside
  · exact .inr ⟨first, place, index, level, field, hlevel, hfield, hindex,
      .inr (findEnd_wrap helement)⟩
  · cases hnil

/-- By induction on the element: inside it only the ends of elements are
linked. -/
theorem endsElement_of_body (field : Field) {first place index i : Nat} {level : List Field}
    {token : Token} (hlevel : Standing (rawTokens order message) message.fields first level)
    (hfield : level[place]? = some field)
    (hindex : (row (rawTokens order message) first level.length)[place]? = some index)
    (htoken : (body order (index + 1) field)[i]? = some token) :
    token.refId = invalidId ∨
      EndsElement (rawTokens order message) message.fields (index + 1 + i) := by
  have htype : ∀ {type offset info i}, (typeTokens order offset info type)[i]? = some token →
      token.refId = invalidId :=
    fun h => refId_typeTokens order _ _ _ token (List.mem_of_getElem? h)
  induction field using Field.induct generalizing first place index i level with
  | ofPlain info type =>
    rw [body] at htoken
    exact .inl (htype htoken)
  | ofData info type =>
    rw [body] at htoken
    exact .inl (htype htoken)
  | ofGroup info dimension blockLength inner ih =>
    obtain ⟨tail, hdrop⟩ := drop_of_standing hlevel
    obtain ⟨after, helement⟩ := drop_element hdrop hfield hindex
    obtain ⟨rest, hinside⟩ := drop_inside helement
    rw [body, List.append_assoc] at hinside
    have hinner := Standing.group hlevel hfield hindex
    rw [behind_typeTokens hinside] at hinner
    rw [body, wrapAll_bodies, List.getElem?_append] at htoken
    split at htoken
    · exact .inl (htype htoken)
    · next hlong =>
      obtain ⟨_, found, start, k, hfound, hstart, hsum, hpart⟩ := exists_element htoken
      obtain ⟨_, hrest⟩ := drop_of_standing hinner
      rw [← row_wrapped hrest] at hstart
      have hsame : index + 1 + i = start + k := by omega
      rw [hsame]
      exact endsElement_of_wrap hinner hfound hstart hpart
        (ih found (List.mem_of_getElem? hfound) hinner hfound hstart)

theorem endsElement_of_refId {k : Nat} {token : Token}
    (htoken : (rawTokens order message)[k]? = some token) (hlinked : token.refId ≠ invalidId) :
    EndsElement (rawTokens order message) message.fields k := by
  have hlevel : Standing (rawTokens order message) message.fields 1 message.fields := .message
  obtain ⟨tail, hdrop⟩ := drop_of_standing hlevel
  rw [rawTokens, bracketed] at htoken
  rcases Token.getElem?_bracket htoken with ⟨-, rfl⟩ | ⟨i, rfl, hinner⟩ | ⟨-, rfl⟩ | ⟨_, -, hnil⟩
  · exact absurd rfl hlinked
  · obtain ⟨place, field, index, j, hfield, hindex, hsum, hpart⟩ := exists_element hinner
    rw [← row_wrapped hdrop] at hindex
    rw [Nat.add_comm, hsum]
    exact (endsElement_of_wrap hlevel hfield hindex hpart
      (endsElement_of_body field hlevel hfield hindex)).resolve_left hlinked
  · exact absurd rfl hlinked
  · cases hnil

end

/-- An element in a run, from its begin to the end that repeats it. -/
structure Around (run : List Token) (field : Field) (index last : Nat) (token : Token) : Prop where
  begins : run[index]? = some token
  signal : token.signal = opens field
  name : token.name = field.name
  id : token.id = field.info.id
  closed : findEnd run index = some last
  ends : run[last]? = some { token with signal := closes field }

/-- A run with every link of its elements. An index is a word, and says which
token is meant as long as it can. -/
structure Referenced (run : List Token) (fields : List Field) : Prop where
  around : ∀ {first place : Nat} {level : List Field} {field : Field},
    Standing run fields first level → level[place]? = some field →
    ∃ index last token, (row run first level.length)[place]? = some index ∧
      Around run field index last token
  linked : ∀ {first place other index target : Nat} {level : List Field} {field sibling : Field}
    {token : Token}, Standing run fields first level → level[place]? = some field →
    (row run first level.length)[place]? = some index → run[index]? = some token →
    link field.info = some other → level[other]? = some sibling →
    (row run first level.length)[other]? = some target →
    target < run.length ∧ token.refId = Int32.ofNat target ∧
      (run.length ≤ Token.maxCount → token.refId.toInt = target)
  unlinked : ∀ {first place index : Nat} {level : List Field} {field : Field} {token : Token},
    Standing run fields first level → level[place]? = some field →
    (row run first level.length)[place]? = some index → run[index]? = some token →
    (∀ other, link field.info = some other → level.length ≤ other) → token.refId = invalidId
  others : ∀ {k : Nat} {token : Token}, run[k]? = some token → token.refId ≠ invalidId →
    EndsElement run fields k

section
variable {order : ByteOrder} {message : Message} {first place : Nat} {level : List Field}

theorem behind_messageTokens :
    behind (messageTokens order message) = behind (rawTokens order message) := by
  rw [messageTokens_eq_recount, Token.behind_recount (nested_rawTokens order message)]

theorem row_messageTokens : row (messageTokens order message) = row (rawTokens order message) := by
  rw [messageTokens_eq_recount, Token.row_recount (nested_rawTokens order message)]

theorem standing_messageTokens_iff {fields : List Field} :
    Standing (messageTokens order message) fields first level ↔
      Standing (rawTokens order message) fields first level :=
  ⟨.congr behind_messageTokens row_messageTokens,
    .congr behind_messageTokens.symm row_messageTokens.symm⟩

theorem token_of_standing {field : Field} {index : Nat}
    (h : Standing (messageTokens order message) message.fields first level)
    (hfield : level[place]? = some field)
    (hindex : (row (messageTokens order message) first level.length)[place]? = some index) :
    ∃ token, (messageTokens order message)[index]? = some token ∧
      token.uncounted = (fieldToken (opens field) field.info
        (reference (row (messageTokens order message) first level.length) field)).uncounted := by
  rw [row_messageTokens] at hindex ⊢
  obtain ⟨tail, hdrop⟩ := drop_of_standing (standing_messageTokens_iff.mp h)
  obtain ⟨after, helement⟩ := drop_element hdrop hfield hindex
  rw [← row_wrapped hdrop, wrap, bracketed] at helement
  have hraw := congrArg (·[0]?) helement
  simp only [List.getElem?_drop, Nat.add_zero, List.cons_append, List.getElem?_cons_zero] at hraw
  have hcounted := Token.getElem?_recount (nested_rawTokens order message) index
  rw [hraw, Option.map_some, ← messageTokens_eq_recount] at hcounted
  exact Option.map_eq_some_iff.mp hcounted

theorem refId_of_standing {field : Field} {index : Nat} {token : Token}
    (h : Standing (messageTokens order message) message.fields first level)
    (hfield : level[place]? = some field)
    (hindex : (row (messageTokens order message) first level.length)[place]? = some index)
    (htoken : (messageTokens order message)[index]? = some token) :
    token.refId = reference (row (messageTokens order message) first level.length) field := by
  obtain ⟨found, hfound, heq⟩ := token_of_standing h hfield hindex
  rw [hfound] at htoken
  cases htoken
  exact congrArg (·.refId) heq

theorem exists_around {field : Field}
    (h : Standing (messageTokens order message) message.fields first level)
    (hfield : level[place]? = some field) :
    ∃ index last token, (row (messageTokens order message) first level.length)[place]? =
      some index ∧ Around (messageTokens order message) field index last token := by
  have hplace : place < (row (messageTokens order message) first level.length).length := by
    rw [Token.length_row]
    exact (List.getElem?_eq_some_iff.mp hfield).1
  have hindex := List.getElem?_eq_getElem hplace
  obtain ⟨token, htoken, heq⟩ := token_of_standing h hfield hindex
  have hsignal : token.signal = opens field := congrArg (·.signal) heq
  have hbegin : token.signal.isBegin = true := by
    rw [hsignal]
    cases field <;> rfl
  obtain ⟨count, closing, -, -, -, hclosing, hends, -, hend⟩ :=
    (selfDescribing_messageTokens order message).closed _ token htoken hbegin
  rw [hsignal, closing?_opens] at hclosing
  cases hclosing
  exact ⟨_, _, token, hindex, htoken, hsignal, congrArg (·.name) heq, congrArg (·.id) heq, hend,
    hends⟩

/-- Whatever the links of its elements say, a run has them all. -/
theorem referenced_messageTokens (order : ByteOrder) (message : Message) :
    Referenced (messageTokens order message) message.fields where
  around := exists_around
  linked := by
    intro first place other index target level field sibling token h hfield hindex htoken hlink
      hsibling htarget
    have hrefId := refId_of_standing h hfield hindex htoken
    rw [reference, hlink, Option.bind_some, htarget] at hrefId
    obtain ⟨found, last, opening, hfound, haround⟩ := exists_around h hsibling
    rw [htarget] at hfound
    cases hfound
    have hlt := (List.getElem?_eq_some_iff.mp haround.begins).1
    refine ⟨hlt, hrefId, fun hmax => ?_⟩
    rw [hrefId]
    unfold Token.maxCount at hmax
    exact Int32.toInt_ofNat_of_lt (by omega)
  unlinked := by
    intro first place index level field token h hfield hindex htoken hlink
    have hnone : (link field.info).bind
        ((row (messageTokens order message) first level.length)[·]?) = none := by
      rw [Option.bind_eq_none_iff]
      intro other hother
      rw [List.getElem?_eq_none_iff, Token.length_row]
      exact hlink other hother
    rw [refId_of_standing h hfield hindex htoken, reference, hnone]
  others := by
    intro k token htoken hlinked
    have hcounted := Token.getElem?_recount (nested_rawTokens order message) k
    rw [← messageTokens_eq_recount, htoken, Option.map_some] at hcounted
    obtain ⟨found, hfound, heq⟩ := Option.map_eq_some_iff.mp hcounted.symm
    have hrefId : found.refId = token.refId := congrArg (·.refId) heq
    rw [← hrefId] at hlinked
    obtain ⟨first, place, index, level, field, hlevel, hrest⟩ := endsElement_of_refId hfound hlinked
    refine ⟨first, place, index, level, field, standing_messageTokens_iff.mpr hlevel, ?_⟩
    rwa [row_messageTokens, messageTokens_eq_recount,
      Token.findEnd_recount (nested_rawTokens order message)]

end
end Generate

namespace Schema

/-- Whatever schema is compiled, with whatever links, the tokens of a run are
linked as its elements are, by valid indices of that run. -/
theorem referenced_of_compile {schema : Schema} {namespaceName : Option String} {ir : Ir}
    (h : schema.compile namespaceName = .ok ir) :
    ∀ entry ∈ ir.messages.entries, ∃ message ∈ schema.messages.values,
      entry.1 = message.id ∧ Generate.Referenced entry.2 message.fields := by
  obtain ⟨info, members, start, -, hcreate, rfl⟩ := compile_eq_ok h
  intro entry hentry
  obtain ⟨source, hsource, rfl⟩ := List.mem_map.mp (Record.mem_entries_addAll hcreate hentry)
  exact ⟨source.2, List.mem_map_of_mem hsource, rfl,
    Generate.referenced_messageTokens schema.byteOrder source.2⟩

/-- A schema put together by hand: elements linked to themselves, to each other
around a group, inside it, and past the end of their list. -/
def knottedSchema : Schema :=
  let number (name : String) : DataType := .encoded { name } { primitive := .uint16 }
  let pair (name : String) : DataType := .composite { name } [number "first", number "second"]
  let inner : List Field :=
    [.plain { name := "a", id := 3, entryCountField := some 2 } (number "n"),
      .group { name := "b", id := 4, lengthField := some 9 } (pair "p") 0
        [.data { name := "c", id := 5, dataField := some 0 } (pair "t")],
      .data { name := "d", id := 6, groupField := some 1, dataField := some 0 } (pair "t")]
  { packageName := "p", id := 7
    types := Table.empty.insert "messageHeader" (.composite { name := "messageHeader" }
      [number "blockLength", number "templateId", number "schemaId", number "version"])
    messages := Table.empty.insert 1
      { id := 1, name := "M", fields :=
        [.plain { name := "e", id := 7, groupField := some 2, dataField := some 1 } (number "n"),
          .group { name := "f", id := 2, entryCountField := some 0, lengthField := some 2 }
            (pair "p") 0 inner,
          .plain { name := "g", id := 8, dataField := some 1 } (number "n")] } }

theorem referenced_knottedSchema :
    ∃ ir, knottedSchema.compile none = .ok ir ∧
      (ir.messages.values.flatten.filter (·.refId ≠ invalidId)).map
          (fun token => (token.name, token.refId.toInt)) =
        [("e", 31), ("e", 31), ("f", 1), ("a", 24), ("a", 24), ("c", 17), ("c", 17), ("d", 12),
          ("d", 12), ("f", 1), ("g", 4), ("g", 4)] ∧
      ∀ entry ∈ ir.messages.entries, ∃ message ∈ knottedSchema.messages.values,
        entry.1 = message.id ∧ Generate.Referenced entry.2 message.fields := by
  obtain ⟨ir, hir⟩ : ∃ ir, knottedSchema.compile none = .ok ir := ⟨_, rfl⟩
  refine ⟨ir, hir, ?_, referenced_of_compile hir⟩
  cases hir
  decide +kernel

end Schema
end SimpleBinary
