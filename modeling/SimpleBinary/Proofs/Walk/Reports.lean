import SimpleBinary.Proofs.Ir.Generated
import SimpleBinary.Proofs.Token.Component
import SimpleBinary.Proofs.Walk.Content
import SimpleBinary.Walk.Message

/-! Walks that do nothing but tell their listener, one notice after the other.
The walk over a type of fixed length is one, and so is the walk over the plain
fields of a block. -/
namespace SimpleBinary.Walk
open Generate
open Token (Nested Whole maxCount recount)

section
variable {σ α β : Type} {listen : Listener σ} {buffer : List UInt8}

/-- A walk tells its listener what is to be heard, in order, and gives a value. -/
def Reports (listen : Listener σ) (buffer : List UInt8) (walk : Walking σ α) (value : α)
    (heard : List Heard) : Prop :=
  ∃ notices : List Notice, notices.map (Heard.of buffer) = heard ∧
    walk = (do forM notices listen; pure value)

def Willing (listen : Listener σ) : Prop :=
  ∀ notice state, ((listen notice).run.run state).1 = .ok ()

namespace Reports

theorem pure (value : α) : Reports listen buffer (pure value) value [] :=
  ⟨[], rfl, by simp⟩

theorem tell (notice : Notice) : Reports listen buffer (listen notice) () [.of buffer notice] :=
  ⟨[notice], rfl, by simp⟩

theorem bind {first : Walking σ α} {next : α → Walking σ β} {value : α} {last : β}
    {heard more : List Heard} (h : Reports listen buffer first value heard)
    (hnext : Reports listen buffer (next value) last more) :
    Reports listen buffer (first >>= next) last (heard ++ more) := by
  obtain ⟨notices, rfl, rfl⟩ := h
  obtain ⟨others, rfl, hothers⟩ := hnext
  refine ⟨notices ++ others, List.map_append, ?_⟩
  simp [hothers]

theorem tellThen {notice : Notice} {next : Walking σ α} {value : α} {heard : List Heard}
    (h : Reports listen buffer next value heard) :
    Reports listen buffer (do listen notice; next) value (.of buffer notice :: heard) :=
  (tell notice).bind h

/-- A willing listener hears a walk to its end. -/
theorem returns {walk : Walking σ α} {value : α} {heard : List Heard}
    (h : Reports listen buffer walk value heard) (hwilling : Willing listen) (state : σ) :
    (walk.run.run state).1 = .ok value := by
  obtain ⟨notices, -, rfl⟩ := h
  induction notices generalizing state with
  | nil => rfl
  | cons notice rest ih =>
    obtain ⟨after, hafter⟩ : ∃ after, (listen notice).run.run state = (.ok (), after) :=
      ⟨_, Prod.ext (hwilling notice state) rfl⟩
    have hrest := ih after
    simp only [List.forM_cons, bind_assoc, ExceptT.run_bind, StateT.run_bind, hafter] at hrest ⊢
    exact hrest

end Reports
end

@[simp] theorem certain_ok {σ α : Type} (value : α) :
    (certain (.ok value) : Walking σ α) = pure value :=
  rfl

theorem toIndex_ofInt {n : Int} (h : IsPlace n) (owner : String) :
    toIndex (Int32.ofInt n) owner = .ok n.toNat := by
  have hnonneg := h.1
  rw [toIndex, h.toInt_ofInt, if_neg (by omega)]

theorem exists_bracketedRun {opening : Token} {closing : Signal} {inner : List Token}
    (hclosing : opening.signal.closing? = some closing) (hinner : Nested inner)
    (hlength : (bracketed opening closing inner).length ≤ maxCount) :
    ∃ last : Token, recount (bracketed opening closing inner) =
        opening.withCount (inner.length + 2) :: (recount inner ++ [last]) ∧
      Whole (opening.withCount (inner.length + 2) :: (recount inner ++ [last])) ∧
      last.uncounted = { opening with signal := closing, count := 0 } := by
  have hinside : inner.length + 2 ≤ maxCount := length_bracketed opening closing inner ▸ hlength
  have hwhole : Whole (recount (bracketed opening closing inner)) :=
    Token.whole_bracketed hclosing hinner hinside
  have hrun : recount (bracketed opening closing inner) = _ :=
    Token.recount_bracketed hclosing hinner
  rw [Token.length_recount hinner, List.cons_append] at hrun
  exact ⟨_, hrun, hrun ▸ hwhole, rfl⟩

def typeSignal : DataType → Signal
  | .encoded .. => .encoding
  | .composite .. => .beginComposite
  | .enum .. => .beginEnum
  | .set .. => .beginSet

/-- A type is one component under its name, at its offset and of its length. -/
theorem exists_typeRun (order : ByteOrder) (type : DataType) (offset : Int)
    (field : Option FieldInfo) (hlength : (typeTokens order offset field type).length ≤ maxCount) :
    ∃ token rest, recount (typeTokens order offset field type) = token :: rest ∧
      Whole (token :: rest) ∧ token.name = type.name ∧ token.offset = Int32.ofInt offset ∧
      token.size = Int32.ofInt type.encodedLength ∧ token.signal = typeSignal type ∧
      (token.signal = .encoding ∧ rest = [] ∨ token.signal.opensType = true) := by
  cases type with
  | encoded info type =>
    rw [typeTokens, Token.recount_leaf rfl rfl .nil]
    exact ⟨_, _, rfl, Token.whole_leaf _, rfl, rfl, rfl, rfl, .inl ⟨rfl, rfl⟩⟩
  | composite info members =>
    rw [typeTokens] at hlength ⊢
    obtain ⟨last, hrun, hwhole, -⟩ :=
      exists_bracketedRun rfl (nested_memberTokens order members 0) hlength
    exact ⟨_, _, hrun, hwhole, rfl, rfl, rfl, rfl, .inr rfl⟩
  | enum info type =>
    rw [typeTokens] at hlength ⊢
    obtain ⟨last, hrun, hwhole, -⟩ :=
      exists_bracketedRun rfl (nested_namedTokens order rfl rfl _ type.values) hlength
    exact ⟨_, _, hrun, hwhole, rfl, rfl, by rw [DataType.encodedLength]; rfl, rfl, .inr rfl⟩
  | set info type =>
    rw [typeTokens] at hlength ⊢
    obtain ⟨last, hrun, hwhole, -⟩ :=
      exists_bracketedRun rfl (nested_namedTokens order rfl rfl _ type.choices) hlength
    exact ⟨_, _, hrun, hwhole, rfl, rfl, by rw [DataType.encodedLength]; rfl, rfl, .inr rfl⟩

/-- A field is one component under its name, with its inside between two
tokens. -/
theorem exists_fieldRun (order : ByteOrder) (starts : List Nat) (base : Nat) (field : Field)
    (rest : List Field) (hlength : (wrapped order starts base (field :: rest)).length ≤ maxCount) :
    ∃ token last next, recount (wrapped order starts base (field :: rest)) =
        token :: (recount (body order (base + 1) field) ++ [last]) ++
          recount (wrapped order starts next rest) ∧
      Whole (token :: (recount (body order (base + 1) field) ++ [last])) ∧
      token.signal = opens field ∧ token.name = field.name ∧
      (body order (base + 1) field).length ≤ maxCount ∧
      (wrapped order starts next rest).length ≤ maxCount := by
  rw [wrapped_cons, wrap, List.length_append] at hlength
  have hinside := length_bracketed
    (fieldToken (opens field) field.info (reference starts field)) (closes field)
    (body order (base + 1) field)
  obtain ⟨last, hrun, hwhole, -⟩ := exists_bracketedRun
    (closing?_opens field : (fieldToken (opens field) field.info _).signal.closing? = _)
    (nested_body order field (base + 1)) (Nat.le_trans (Nat.le_add_right _ _) hlength)
  refine ⟨_, last, _, ?_, hwhole, rfl, rfl, by omega, Nat.le_trans (Nat.le_add_left _ _) hlength⟩
  rw [wrapped_cons, wrap, Token.recount_append
    (nested_bracketed (closing?_opens field) (nested_body order field _))
    (nested_wrapped order rest starts _), hrun]

theorem component_append {stretch : List Token} (h : Whole stretch) (tail : List Token) :
    component (stretch ++ tail) = .ok (stretch, tail) := by
  unfold component
  rw [Token.component?_append h]

section
variable {σ : Type} (listen : Listener σ) (buffer : List UInt8)

def walkType (owner : Token) (place : Nat) (run : List Token) : Walking σ Unit :=
  match run with
  | [] => pure ()
  | type :: rest =>
    match type.signal with
    | .beginComposite => composite listen owner place (type :: rest)
    | .beginEnum => listen (.enum owner place (type :: rest))
    | .beginSet => listen (.set owner place (type :: rest))
    | .encoding => listen (.encoding owner place type)
    | _ => pure ()

theorem members_cons_cons (index : Nat) (token next : Token) (rest : List Token) :
    members listen index (token :: next :: rest) = (do
      let offset ← certain (toIndex token.offset token.name)
      if token.signal.opensType then do
        let parts ← certain (component (token :: next :: rest))
        if token.signal = .beginComposite then composite listen token (index + offset) parts.1
        else if token.signal = .beginEnum then listen (.enum token (index + offset) parts.1)
        else listen (.set token (index + offset) parts.1)
        members listen index parts.2
      else do
        if token.signal = .encoding then listen (.encoding token (index + offset) token)
        members listen index (next :: rest)) := by
  rw [members]
  apply bind_congr
  intro offset
  split
  · split
    · next h =>
      rw [h]
      rfl
    · next h =>
      rw [h]
      rfl
  · rfl

theorem members_append (index : Nat) {token : Token} {rest after : List Token}
    (hwhole : Whole (token :: rest))
    (hsignal : token.signal = .encoding ∧ rest = [] ∨ token.signal.opensType = true)
    (hafter : after ≠ []) :
    members listen index (token :: rest ++ after) = (do
      let offset ← certain (toIndex token.offset token.name)
      walkType listen token (index + offset) (token :: rest)
      members listen index after) := by
  have hcomponent := component_append hwhole after
  obtain ⟨next, others, hnext⟩ : ∃ next others, rest ++ after = next :: others :=
    List.exists_cons_of_ne_nil (by simp [hafter])
  rw [List.cons_append, hnext] at hcomponent ⊢
  rw [members_cons_cons, hcomponent]
  apply bind_congr
  intro offset
  rcases hsignal with ⟨hencoding, rfl⟩ | hopens
  · rw [List.nil_append] at hnext
    rw [if_neg (by simp [hencoding, Signal.opensType]), if_pos hencoding, hnext,
      walkType, hencoding]
  · rw [if_pos hopens, certain_ok, pure_bind]
    have hkind : token.signal = .beginComposite ∨ token.signal = .beginEnum ∨
        token.signal = .beginSet := by
      revert hopens
      cases token.signal <;> simp [Signal.opensType]
    rcases hkind with h | h | h <;> simp [walkType, h]

mutual

theorem reports_walkType (order : ByteOrder) : ∀ type : DataType, type.Valid →
    type.isVariable = false → ∀ (offset : Int) (field : Option FieldInfo),
    (typeTokens order offset field type).length ≤ maxCount → ∀ (owner : Token) (place : Nat),
    Reports listen buffer
      (walkType listen owner place (recount (typeTokens order offset field type))) ()
      (typeHeard owner.name place type)
  | .encoded info type, _, _, offset, field, _, owner, place => by
    rw [typeTokens, Token.recount_leaf rfl rfl .nil, typeHeard]
    exact .tell _
  | .enum info type, _, _, offset, field, hlength, owner, place => by
    rw [typeTokens] at hlength ⊢
    obtain ⟨last, hrun, -⟩ :=
      exists_bracketedRun rfl (nested_namedTokens order rfl rfl _ type.values) hlength
    unfold enumTokens
    rw [hrun, typeHeard]
    exact .tell _
  | .set info type, _, _, offset, field, hlength, owner, place => by
    rw [typeTokens] at hlength ⊢
    obtain ⟨last, hrun, -⟩ :=
      exists_bracketedRun rfl (nested_namedTokens order rfl rfl _ type.choices) hlength
    unfold setTokens
    rw [hrun, typeHeard]
    exact .tell _
  | .composite info members, .composite _ hmembers _ hspaced, hfixed, offset, field, hlength,
      owner, place => by
    rw [DataType.isVariable] at hfixed
    rw [typeTokens] at hlength ⊢
    obtain ⟨last, hrun, -⟩ :=
      exists_bracketedRun rfl (nested_memberTokens order members 0) hlength
    have hinside : (memberTokens order 0 members).length ≤ maxCount := by
      rw [length_bracketed] at hlength
      omega
    have hreports := reports_members order members hmembers hfixed 0 (by decide) hspaced hinside
      place last
    rw [hrun, typeHeard]
    change Reports listen buffer (composite listen owner place (_ :: _)) () _
    rw [composite]
    exact .tellThen (.bind hreports (.tell _))

theorem reports_members (order : ByteOrder) : ∀ members : List DataType,
    (∀ member ∈ members, member.Valid) → DataType.anyVariable members = false →
    ∀ offset : Int, IsPlace offset → DataType.Spaced offset members →
    (memberTokens order offset members).length ≤ maxCount → ∀ (index : Nat) (last : Token),
    Reports listen buffer
      (Walk.members listen index (recount (memberTokens order offset members) ++ [last])) ()
      (membersHeard index offset members)
  | [], _, _, offset, _, _, _, index, last => by
    rw [memberTokens, membersHeard]
    change Reports listen buffer (Walk.members listen index [last]) () []
    rw [Walk.members]
    exact .pure ()
  | member :: rest, hvalid, hfixed, offset, hoffset, hspaced, hlength, index, last => by
    rw [DataType.anyVariable, Bool.or_eq_false_iff] at hfixed
    have hmember := hvalid member List.mem_cons_self
    obtain ⟨hstart, hend, hrest⟩ := hspaced.place hmember hfixed.1 hoffset
    rw [memberTokens_cons, List.length_append] at hlength
    obtain ⟨token, others, hrun, hwhole, hname, htoken, -, -, hsignal⟩ :=
      exists_typeRun order member (member.start offset) none (by omega)
    have hfirst := reports_walkType order member hmember hfixed.1 (member.start offset) none
      (by omega) token (index + (member.start offset).toNat)
    have hothers := reports_members order rest
      (fun other hother => hvalid other (List.mem_cons_of_mem _ hother)) hfixed.2 _ hend hrest
      (by omega) index last
    rw [memberTokens_cons, Token.recount_append (nested_typeTokens order member _ none)
      (nested_memberTokens order rest _), List.append_assoc, membersHeard]
    rw [hrun, hname] at hfirst
    rw [hrun, members_append listen index hwhole hsignal (by simp), htoken,
      toIndex_ofInt hstart, certain_ok, pure_bind]
    exact .bind hfirst hothers

end

theorem field_bracketed (index : Nat) (token : Token) {first last type : Token}
    {rest : List Token} :
    field listen index token (first :: (type :: rest ++ [last])) = (do
      let offset ← certain (toIndex type.offset type.name)
      walkType listen token (index + offset) (type :: rest)) := by
  rw [field, Token.inner_bracketed]
  rfl

theorem fields_cons (index : Nat) {token : Token} (hsignal : token.signal = .beginField)
    (rest : List Token) :
    fields listen index (token :: rest) = (do
      let parts ← certain (component (token :: rest))
      field listen index token parts.1
      fields listen index parts.2) := by
  rw [fields, if_pos hsignal]
  split
  · next h =>
    rw [h]
    rfl
  · next h =>
    rw [h]
    rfl

theorem fields_append (index : Nat) {token : Token} {rest : List Token}
    (hwhole : Whole (token :: rest)) (hsignal : token.signal = .beginField) (tail : List Token) :
    fields listen index (token :: rest ++ tail) = (do
      field listen index token (token :: rest)
      fields listen index tail) := by
  rw [List.cons_append, fields_cons listen index hsignal, ← List.cons_append,
    component_append hwhole, certain_ok, pure_bind]

theorem fields_of_lead?_ne (index : Nat) {run : List Token}
    (h : Token.lead? run ≠ some .beginField) : fields listen index run = pure () := by
  cases run with
  | nil => rw [fields]
  | cons token rest =>
    rw [fields, if_neg]
    exact fun heq => h (congrArg some heq)

theorem reports_fields (order : ByteOrder) (starts : List Nat) (index : Nat) {tail : List Token}
    (htail : Token.lead? tail ≠ some .beginField) : ∀ plains : List Field,
    (∀ field ∈ plains, ∃ info type, field = .plain info type ∧ type.Valid ∧
      type.isVariable = false ∧ IsPlace info.computedOffset) → ∀ base : Nat,
    (wrapped order starts base plains).length ≤ maxCount →
    Reports listen buffer
      (fields listen index (recount (wrapped order starts base plains) ++ tail)) ()
      (blockHeard index plains)
  | [], _, base, _ => by
    rw [wrapped_nil, blockHeard]
    change Reports listen buffer (fields listen index tail) () []
    rw [fields_of_lead?_ne listen index htail]
    exact .pure ()
  | field :: rest, hplains, base, hlength => by
    obtain ⟨info, type, rfl, hvalid, hfixed, hplace⟩ := hplains field List.mem_cons_self
    obtain ⟨token, last, next, hrun, hwhole, hsignal, hname, hinside, hrest⟩ :=
      exists_fieldRun order starts base _ rest hlength
    rw [body] at hrun hwhole hinside
    obtain ⟨first, inside, htype, -, -, hoffset, -⟩ :=
      exists_typeRun order type info.computedOffset info hinside
    have hfirst := reports_walkType listen buffer order type hvalid hfixed info.computedOffset info
      hinside token (index + info.computedOffset.toNat)
    have hothers := reports_fields order starts index htail rest
      (fun other hother => hplains other (List.mem_cons_of_mem _ hother)) next hrest
    rw [htype, hname] at hfirst
    rw [htype] at hrun hwhole
    rw [hrun, List.append_assoc, fields_append listen index hwhole hsignal, field_bracketed,
      hoffset, toIndex_ofInt hplace, certain_ok, pure_bind, blockHeard]
    exact .bind hfirst hothers

end
end SimpleBinary.Walk
