import SimpleBinary.Proofs.Ir.Generated
import SimpleBinary.Proofs.Schema.Blocks

/-! The members of a composite in its run of tokens. They go one behind the
other, but the length of a composite leaves out what its constants take up, so
they stay inside it only as long as an offset is declared behind those. -/
namespace SimpleBinary

namespace DataType

/-- Members of fixed length, placed one behind the other from an offset on. -/
structure Placed (offset : Int) (members : List DataType) : Prop where
  valid : ∀ member ∈ members, member.Valid
  fixed : anyVariable members = false
  spaced : Spaced offset members
  isPlace : IsPlace offset

variable {offset length : Int} {member : DataType} {members rest : List DataType}

theorem Placed.cons (h : Placed offset (member :: rest)) :
    offset ≤ member.start offset ∧ IsPlace (member.start offset) ∧ IsPlace member.encodedLength ∧
      Placed (member.start offset + member.encodedLength) rest := by
  have hfixed := h.fixed
  rw [anyVariable, Bool.or_eq_false_iff] at hfixed
  have hmember := h.valid member List.mem_cons_self
  obtain ⟨hstart, hend, hrest⟩ := h.spaced.place hmember hfixed.1 h.isPlace
  refine ⟨h.spaced.1, hstart, hmember.isPlace_encodedLength hfixed.1, ?_, hfixed.2, hrest, hend⟩
  exact fun other hother => h.valid other (List.mem_cons_of_mem _ hother)

/-- Where the length stands behind a member, beside the offset behind it. -/
theorem Placed.lengthBehind (h : Placed offset (member :: rest)) (hle : length ≤ offset) :
    length ≤ member.lengthBehind length ∧
      member.lengthBehind length ≤ member.start offset + member.encodedLength ∧
      (member.lengthBehind length = member.start offset + member.encodedLength ↔
        (length = offset ∨ member.info.offset.isSome = true) ∧
          (member.isConstant = false ∨ member.encodedLength = 0)) := by
  obtain ⟨hstart, -, hsize, -⟩ := h.cons
  unfold IsPlace at hsize
  unfold DataType.lengthBehind
  cases hdeclared : member.info.offset with
  | some declared =>
    rw [start_of_some offset hdeclared] at hstart ⊢
    rw [start_of_some length hdeclared]
    cases member.isConstant <;>
      simp only [Bool.false_eq_true, Bool.true_eq_false, if_true, if_false, Option.isSome_some,
        or_true, true_or, false_or, true_and, and_true] <;> omega
  | none =>
    rw [start_of_none offset hdeclared, start_of_none length hdeclared]
    cases member.isConstant <;>
      simp only [Bool.false_eq_true, Bool.true_eq_false, if_true, if_false, Option.isSome_none,
        or_false, true_or, false_or, and_true] <;> omega

theorem Placed.membersLength_cons (h : Placed offset (member :: rest)) (length : Int) :
    membersLength length (member :: rest) = membersLength (member.lengthBehind length) rest := by
  have hfixed := h.fixed
  rw [anyVariable, Bool.or_eq_false_iff] at hfixed
  exact DataType.membersLength_cons hfixed.1 length rest

def spans (offset : Int) : List DataType → List (Int × Int)
  | [] => []
  | member :: rest =>
    let stop := member.start offset + member.encodedLength
    if member.encodedLength = 0 then spans stop rest
    else (member.start offset, stop) :: spans stop rest

theorem Placed.ascending (h : Placed offset members) :
    Ascending offset (runningEnd offset members) (spans offset members) := by
  induction members generalizing offset with
  | nil => exact Int.le_refl offset
  | cons member rest ih =>
    obtain ⟨hle, hstart, hsize, hrest⟩ := h.cons
    have hbehind := ih hrest
    unfold IsPlace at hsize
    rw [spans]
    split
    · exact hbehind.lower (by omega)
    · exact ⟨hle, by omega, hbehind⟩

theorem Placed.span_lt (h : Placed offset members) :
    ∀ span ∈ spans offset members, span.1 < span.2 := by
  induction members generalizing offset with
  | nil => simp [spans]
  | cons member rest ih =>
    obtain ⟨-, -, hsize, hrest⟩ := h.cons
    unfold IsPlace at hsize
    rw [spans]
    split
    · exact ih hrest
    · intro span hspan
      rcases List.mem_cons.mp hspan with rfl | hspan
      · dsimp only
        omega
      · exact ih hrest span hspan

/-- Whether an offset is declared behind every constant that takes up bytes. -/
def flush : List DataType → Bool
  | [] => true
  | member :: rest =>
    (!member.isConstant || member.encodedLength = 0 || rest.any (·.info.offset.isSome)) &&
      flush rest

theorem Placed.membersLength_le (h : Placed offset members) (hle : length ≤ offset) :
    length ≤ membersLength length members ∧
      membersLength length members ≤ runningEnd offset members := by
  induction members generalizing offset length with
  | nil =>
    rw [membersLength]
    exact ⟨Int.le_refl _, hle⟩
  | cons member rest ih =>
    obtain ⟨-, -, -, hrest⟩ := h.cons
    obtain ⟨hmore, hbehind, -⟩ := h.lengthBehind hle
    obtain ⟨hlength, hend⟩ := ih hrest hbehind
    rw [h.membersLength_cons]
    exact ⟨Int.le_trans hmore hlength, hend⟩

/-- Constants put the end of members ahead of their length, and only a declared
offset brings both together again. -/
theorem Placed.runningEnd_eq_iff (h : Placed offset members) (hle : length ≤ offset) :
    membersLength length members = runningEnd offset members ↔
      (length = offset ∨ members.any (·.info.offset.isSome) = true) ∧ flush members = true := by
  induction members generalizing offset length with
  | nil => simp [membersLength, runningEnd, flush]
  | cons member rest ih =>
    obtain ⟨-, -, -, hrest⟩ := h.cons
    obtain ⟨-, hbehind, hsame⟩ := h.lengthBehind hle
    have hiff := ih hrest hbehind
    rw [h.membersLength_cons]
    refine hiff.trans ?_
    rw [hsame]
    -- a constant with bytes keeps both apart unless a later member declares its offset
    simp only [flush, List.any_cons, Bool.or_eq_true, Bool.and_eq_true, Bool.not_eq_true',
      decide_eq_true_eq]
    grind

theorem Placed.runningEnd_le (h : Placed offset members) (hle : length ≤ offset)
    (hoffset : offset ≤ membersLength length members)
    (hspans : ∀ span ∈ spans offset members, span.2 ≤ membersLength length members) :
    runningEnd offset members ≤ membersLength length members := by
  induction members generalizing offset length with
  | nil => exact hoffset
  | cons member rest ih =>
    obtain ⟨-, -, -, hrest⟩ := h.cons
    obtain ⟨-, hbehind, -⟩ := h.lengthBehind hle
    obtain ⟨hlength, -⟩ := hrest.membersLength_le hbehind
    rw [h.membersLength_cons] at hoffset hspans ⊢
    rw [spans] at hspans
    by_cases hsize : member.encodedLength = 0
    · rw [if_pos hsize] at hspans
      apply ih hrest hbehind _ hspans
      -- a member without bytes stands at its own offset or adds nothing to the last one
      cases hdeclared : member.info.offset with
      | some declared =>
        simp only [DataType.lengthBehind, start_of_some length hdeclared, hsize, Int.add_zero,
          ite_self] at hlength ⊢
        rw [start_of_some offset hdeclared]
        exact hlength
      | none =>
        rw [start_of_none offset hdeclared, hsize, Int.add_zero]
        exact hoffset
    · rw [if_neg hsize] at hspans
      apply ih hrest hbehind
      · exact hspans _ List.mem_cons_self
      · exact fun span hspan => hspans span (List.mem_cons_of_mem _ hspan)

/-- All bytes are inside the length of the members just when an offset is
declared behind every constant that takes up any. -/
theorem Placed.inside_iff (h : Placed 0 members) :
    (∀ span ∈ spans 0 members, span.2 ≤ membersLength 0 members) ↔ flush members = true := by
  have hend := h.runningEnd_eq_iff (Int.le_refl 0)
  obtain ⟨hnonneg, hle⟩ := h.membersLength_le (Int.le_refl 0)
  constructor
  · intro hspans
    have hmore := h.runningEnd_le (Int.le_refl 0) hnonneg hspans
    exact (hend.mp (Int.le_antisymm hle hmore)).2
  · intro hflush
    rw [hend.mpr ⟨.inl rfl, hflush⟩]
    exact fun span hspan => (h.ascending.inside span hspan).2

end DataType

namespace Token

/-- The tokens at the top of a run that starts at a depth: leaves, and begins
without what is inside them. -/
def leads (depth : Nat) : List Token → List Token
  | [] => []
  | token :: rest =>
    let own := if depth = 0 then [token] else []
    if token.signal.isBegin then own ++ leads (depth + 1) rest
    else if token.signal.isEnd then leads (depth - 1) rest
    else own ++ leads depth rest

def direct (run : List Token) : List Token := leads 0 run.tail

def span? (token : Token) : Option (Int × Int) :=
  if token.size = 0 then none
  else some (token.offset.toInt, token.offset.toInt + token.size.toInt)

def spans (run : List Token) : List (Int × Int) := (direct run).filterMap span?

section
variable {opening closing : Token} {inner : List Token}

theorem leads_leaf {token : Token} (hbegin : token.signal.isBegin = false)
    (hend : token.signal.isEnd = false) (depth : Nat) (rest : List Token) :
    leads depth (token :: rest) = (if depth = 0 then [token] else []) ++ leads depth rest := by
  simp [leads, hbegin, hend]

theorem leads_closing (hclosing : opening.signal.closing? = some closing.signal) (depth : Nat)
    (rest : List Token) : leads depth (closing :: rest) = leads (depth - 1) rest := by
  obtain ⟨hend, hbegin⟩ := Signal.isEnd_of_closing? hclosing
  simp [leads, hbegin, hend]

theorem leads_opening (hclosing : opening.signal.closing? = some closing.signal) (depth : Nat)
    (rest : List Token) :
    leads depth (opening :: rest) =
      (if depth = 0 then [opening] else []) ++ leads (depth + 1) rest := by
  simp [leads, Signal.isBegin_of_closing? hclosing]

theorem leads_inside (h : Nested inner) (depth : Nat) (rest : List Token) :
    leads (depth + 1) (inner ++ rest) = leads (depth + 1) rest := by
  induction h generalizing depth rest with
  | nil => rfl
  | leaf hbegin hend _ ih =>
    rw [List.cons_append, leads_leaf hbegin hend, ih]
    simp
  | bracket hclosing _ _ ihInside ihTail =>
    rw [List.append_assoc, List.cons_append, List.cons_append, leads_opening hclosing, ihInside,
      leads_closing hclosing, Nat.add_sub_cancel, ihTail]
    simp

theorem leads_bracket (hclosing : opening.signal.closing? = some closing.signal)
    (hinner : Nested inner) (rest : List Token) :
    leads 0 (opening :: inner ++ closing :: rest) = opening :: leads 0 rest := by
  rw [List.cons_append, leads_opening hclosing, leads_inside hinner, leads_closing hclosing]
  simp

end
end Token

namespace Generate

theorem leads_bracketed {opening : Token} {closing : Signal} {inner : List Token}
    (hclosing : opening.signal.closing? = some closing) (hinner : Token.Nested inner)
    (rest : List Token) :
    Token.leads 0 (bracketed opening closing inner ++ rest) = opening :: Token.leads 0 rest := by
  rw [bracketed, List.append_assoc]
  exact Token.leads_bracket hclosing hinner rest

theorem leads_typeTokens (order : ByteOrder) (offset : Int) (field : Option FieldInfo)
    (type : DataType) :
    ∃ token, token.offset = Int32.ofInt offset ∧ token.size = Int32.ofInt type.encodedLength ∧
      ∀ rest, Token.leads 0 (typeTokens order offset field type ++ rest) =
        token :: Token.leads 0 rest := by
  cases type with
  | encoded info type =>
    unfold typeTokens
    exact ⟨_, rfl, rfl, Token.leads_leaf rfl rfl 0⟩
  | composite info members =>
    unfold typeTokens
    exact ⟨_, rfl, rfl, leads_bracketed rfl (nested_memberTokens order members 0)⟩
  | enum info type =>
    unfold typeTokens
    exact ⟨_, rfl, rfl, leads_bracketed rfl (nested_namedTokens order rfl rfl _ _)⟩
  | set info type =>
    unfold typeTokens
    exact ⟨_, rfl, rfl, leads_bracketed rfl (nested_namedTokens order rfl rfl _ _)⟩

theorem spans_memberTokens (order : ByteOrder) {offset : Int} {members : List DataType}
    (h : DataType.Placed offset members) (rest : List Token) :
    (Token.leads 0 (memberTokens order offset members ++ rest)).filterMap Token.span? =
      DataType.spans offset members ++ (Token.leads 0 rest).filterMap Token.span? := by
  induction members generalizing offset with
  | nil =>
    rw [memberTokens]
    rfl
  | cons member others ih =>
    obtain ⟨-, hstart, hsize, hothers⟩ := h.cons
    obtain ⟨token, hoffset, hlength, hleads⟩ :=
      leads_typeTokens order (member.start offset) none member
    have hspan : token.span? = if member.encodedLength = 0 then none
        else some (member.start offset, member.start offset + member.encodedLength) := by
      rw [Token.span?, hoffset, hlength, hstart.toInt_ofInt, hsize.toInt_ofInt]
      simp only [hsize.ofInt_eq_zero]
    rw [memberTokens_cons, List.append_assoc, hleads, DataType.spans]
    by_cases hempty : member.encodedLength = 0
    · rw [if_pos hempty] at hspan ⊢
      rw [List.filterMap_cons_none hspan, ih hothers]
    · rw [if_neg hempty] at hspan ⊢
      rw [List.filterMap_cons_some hspan, ih hothers, List.cons_append]

theorem spans_composite (order : ByteOrder) (offset : Int) (field : Option FieldInfo)
    (info : TypeInfo) {members : List DataType} (h : DataType.Placed 0 members) :
    Token.spans (typeTokens order offset field (.composite info members)) =
      DataType.spans 0 members := by
  unfold typeTokens Token.spans Token.direct
  rw [bracketed, List.cons_append, List.tail_cons, spans_memberTokens order h]
  exact List.append_nil _

end Generate

namespace Schema
open Generate (typeTokens)

/-- In the run of a composite of fixed length, in an accepted document, members
follow each other without overlap. They stay inside the composite just when an
offset is declared behind every constant member that takes up bytes. -/
theorem composite_spans_of_parse {document : String} {policy : Policy} {schema : Schema}
    (h : parse document policy = .ok schema) :
    ∀ entry ∈ schema.types.entries, ∀ (info : TypeInfo) (members : List DataType),
      DataType.Inside (.composite info members) entry.2 → DataType.anyVariable members = false →
      ∀ (order : ByteOrder) (offset : Int) (field : Option FieldInfo), ∃ opening : Token,
        (typeTokens order offset field (.composite info members)).head? = some opening ∧
        opening.signal = .beginComposite ∧
        opening.size.toInt = (DataType.composite info members).encodedLength ∧
        (Token.spans (typeTokens order offset field (.composite info members))).Pairwise
          (fun a b => a.2 ≤ b.1) ∧
        (∀ span ∈ Token.spans (typeTokens order offset field (.composite info members)),
          0 ≤ span.1 ∧ span.1 < span.2) ∧
        ((∀ span ∈ Token.spans (typeTokens order offset field (.composite info members)),
          span.2 ≤ opening.size.toInt) ↔ DataType.flush members = true) := by
  intro entry hentry info members hinside hfixed order offset field
  obtain ⟨hvalid, -⟩ := (valid_of_parse h).types entry hentry
  have hcomposite := hvalid.inside hinside
  have hplaced : DataType.Placed 0 members := by
    cases hcomposite with
    | composite _ hmembers _ hspaced => exact ⟨hmembers, hfixed, hspaced, by decide⟩
  have hsize := (hcomposite.isPlace_encodedLength (by rwa [DataType.isVariable])).toInt_ofInt
  obtain ⟨opening, hopening, hsignal, hlength⟩ : ∃ opening : Token,
      (typeTokens order offset field (.composite info members)).head? = some opening ∧
      opening.signal = .beginComposite ∧
      opening.size = Int32.ofInt (DataType.composite info members).encodedLength := by
    unfold typeTokens
    exact ⟨_, rfl, rfl, rfl⟩
  have hbegin : opening.size.toInt = (DataType.composite info members).encodedLength := by
    rw [hlength, hsize]
  rw [Generate.spans_composite order offset field info hplaced]
  refine ⟨opening, hopening, hsignal, hbegin, hplaced.ascending.pairwise, ?_, ?_⟩
  · exact fun span hspan => ⟨(hplaced.ascending.inside span hspan).1, hplaced.span_lt span hspan⟩
  · rw [hbegin, DataType.encodedLength]
    exact hplaced.inside_iff

structure Packing where
  flush : Bool
  length : Int
  spans : List (Int × Int)
  deriving DecidableEq

def Packing.of (info : TypeInfo) (members : List DataType) : Packing where
  flush := DataType.flush members
  length := (DataType.composite info members).encodedLength
  spans := Token.spans (typeTokens .little 0 none (.composite info members))

def Packing.of? : DataType → Option Packing
  | .composite info members =>
    if DataType.anyVariable members then none else some (.of info members)
  | _ => none

def packingOf (name : String) (schema : Schema) : Option Packing :=
  (schema.types.get? name).bind Packing.of?

theorem exists_packing {schema : Schema} {name : String} {packing : Packing}
    (h : packingOf name schema = some packing) :
    ∃ info members, (name, .composite info members) ∈ schema.types.entries ∧
      DataType.anyVariable members = false ∧ Packing.of info members = packing := by
  obtain ⟨type, htype, hpacking⟩ := Option.bind_eq_some_iff.mp h
  cases type with
  | composite info members =>
    rw [Packing.of?] at hpacking
    split at hpacking
    · cases hpacking
    · next hfixed =>
      have hfixed : DataType.anyVariable members = false := by simpa using hfixed
      exact ⟨info, members, Table.mem_of_get? htype, hfixed, Option.some.inj hpacking⟩
  | encoded => cases hpacking
  | enum => cases hpacking
  | set => cases hpacking

/-- Composites with a constant enum in front: behind it one declares an offset,
the other does not. -/
def stacked : String :=
  withHeader "<messageSchema package='p' id='7'><types>"
    "<composite name='C'><enum name='k' encodingType='uint8' presence='constant'>
    <validValue name='A'>1</validValue></enum><type name='b' primitiveType='uint8'/></composite>
    <composite name='P'><ref name='first' type='C'/><enum name='k' encodingType='uint8'
    presence='constant'><validValue name='A'>1</validValue></enum>
    <type name='b' primitiveType='uint16' offset='4'/><composite name='q'>
    <type name='x' primitiveType='int8'/>
    <type name='y' primitiveType='float' offset='2'/></composite>
    <type name='one' primitiveType='char' presence='constant'>1</type></composite></types>
    </messageSchema>"

def stackedPackings (schema : Schema) : List (Option Packing) :=
  [packingOf "P" schema, packingOf "C" schema]

theorem packings_stacked : (parse stacked {}).toOption.map stackedPackings =
    some [some ⟨true, 12, [(0, 1), (1, 2), (4, 6), (6, 12)]⟩,
      some ⟨false, 1, [(0, 1), (1, 2)]⟩] := by
  rw [stacked, parse_withHeader String.toList_ofList String.toList_ofList]
  decide +kernel

theorem composite_spans_stacked : ∃ schema info members,
    parse stacked {} = .ok schema ∧ ("P", .composite info members) ∈ schema.types.entries ∧
      DataType.anyVariable members = false ∧ DataType.flush members = true ∧
      Token.spans (typeTokens .little 0 none (.composite info members)) =
        [(0, 1), (1, 2), (4, 6), (6, 12)] ∧
      ∃ opening : Token,
        (typeTokens .little 0 none (.composite info members)).head? = some opening ∧
        opening.size.toInt = 12 ∧
        ∀ span ∈ Token.spans (typeTokens .little 0 none (.composite info members)),
          span.2 ≤ opening.size.toInt := by
  obtain ⟨schema, hparse, hpackings⟩ := exists_of_parse packings_stacked
  obtain ⟨info, members, hentry, hfixed, hpacking⟩ := exists_packing (List.cons.inj hpackings).1
  have hflush : DataType.flush members = true := congrArg Packing.flush hpacking
  obtain ⟨opening, hopening, -, hsize, -, -, hinside⟩ :=
    composite_spans_of_parse hparse _ hentry info members .self hfixed .little 0 none
  exact ⟨schema, info, members, hparse, hentry, hfixed, hflush, congrArg Packing.spans hpacking,
    opening, hopening, hsize.trans (congrArg Packing.length hpacking), hinside.mpr hflush⟩

/-- The second member of a composite is behind its end. -/
theorem composite_spans_spilled : ∃ schema info members,
    parse stacked {} = .ok schema ∧ ("C", .composite info members) ∈ schema.types.entries ∧
      DataType.anyVariable members = false ∧
      (DataType.composite info members).encodedLength = 1 ∧
      Token.spans (typeTokens .little 0 none (.composite info members)) = [(0, 1), (1, 2)] := by
  obtain ⟨schema, hparse, hpackings⟩ := exists_of_parse packings_stacked
  obtain ⟨-, hrest⟩ := List.cons.inj hpackings
  obtain ⟨info, members, hentry, hfixed, hpacking⟩ := exists_packing (List.cons.inj hrest).1
  exact ⟨schema, info, members, hparse, hentry, hfixed, congrArg Packing.length hpacking,
    congrArg Packing.spans hpacking⟩

end Schema
end SimpleBinary
