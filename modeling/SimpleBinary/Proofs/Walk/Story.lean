import SimpleBinary.Proofs.Ir.Lookup
import SimpleBinary.Proofs.Schema.Levels
import SimpleBinary.Proofs.Walk.Course
import SimpleBinary.Proofs.Walk.Message

/-! The story of a message: what a listener is told of it, element by element.
A plain field is told by its type, a group by its header and its entries, and
a data element by one notice. -/
namespace SimpleBinary

/-- What holds of fields if it holds of what is inside every group among them
holds of all fields. -/
theorem Field.nesting {P : List Field → Prop}
    (step : ∀ fields : List Field, (∀ info dimension declared inner,
      .group info dimension declared inner ∈ fields → P inner) → P fields)
    (fields : List Field) : P fields := by
  apply step
  intro info dimension declared inner hmem
  exact nesting step inner
termination_by sizeOf fields
decreasing_by
  have hsize := List.sizeOf_lt_of_mem hmem
  rw [Field.group.sizeOf_spec] at hsize
  omega

namespace Walk
open Generate
open Token (Whole maxCount recount)

/-- The place that an offset leads to; a token holds it as a word. -/
def placeBehind (start : Nat) (offset : Int) : Nat := start + (Int32.ofInt offset).toInt.toNat

mutual

/-- What is told of a type under the token of its owner. -/
def typeNotices (order : ByteOrder) (owner : Token) (start : Nat) (offset : Int)
    (field : Option FieldInfo) : DataType → List Notice
  | .encoded info type =>
    [.encoding owner (placeBehind start offset) ((encodedToken order info type
      (DataType.encoded info type).encodedLength offset field).withCount 1)]
  | .enum info type =>
    [.enum owner (placeBehind start offset) (recount (enumTokens order info type offset field))]
  | .set info type =>
    [.set owner (placeBehind start offset) (recount (setTokens order info type offset field))]
  | .composite info members =>
    let run := recount (typeTokens order offset field (.composite info members))
    .beginComposite owner run ::
      (memberNotices order (placeBehind start offset) 0 members ++ [.endComposite owner run])

/-- Members one behind the other. The first token of a member is its owner. -/
def memberNotices (order : ByteOrder) (start : Nat) (offset : Int) : List DataType → List Notice
  | [] => []
  | member :: rest =>
    let run := recount (typeTokens order (member.start offset) none member)
    run.head?.elim [] (fun owner =>
      typeNotices order owner start (member.start offset) none member) ++
      memberNotices order start (member.start offset + member.encodedLength) rest

end

/-- A stretch of what is told: all of a plain field in the block that starts at
a place, or a notice of its own. -/
inductive Told where
  | field (info : FieldInfo) (type : DataType) (owner : Token) (start : Nat)
  | notice (notice : Notice)

def Told.notices (order : ByteOrder) : Told → List Notice
  | .field info type owner start => typeNotices order owner start info.computedOffset info type
  | .notice told => [told]

/-- The token that opens a field, whatever it is linked to and counts. -/
def IsOpening (field : Field) (token : Token) : Prop :=
  ∃ refId, token.uncounted = (fieldToken (opens field) field.info refId).uncounted

/-- The token of the content of a data element. -/
def IsContent (order : ByteOrder) (info : FieldInfo) (type : DataType) (token : Token) : Prop :=
  (recount (typeTokens order info.computedOffset info type)).find?
    (fun token => token.signal = .encoding && token.name = "varData") = some token

inductive PlainStory (start : Nat) : List Field → List Told → Prop where
  | nil : PlainStory start [] []
  | cons {info : FieldInfo} {type : DataType} {owner : Token} {rest : List Field}
      {story : List Told} :
      IsOpening (.plain info type) owner → PlainStory start rest story →
      PlainStory start (.plain info type :: rest) (.field info type owner start :: story)

inductive DataStory (order : ByteOrder) : List Field → List Told → Prop where
  | nil : DataStory order [] []
  | cons {info : FieldInfo} {type : DataType} {owner content : Token} {place length : Nat}
      {rest : List Field} {story : List Told} :
      IsOpening (.data info type) owner → IsContent order info type content →
      DataStory order rest story →
      DataStory order (.data info type :: rest)
        (.notice (.varData owner place length content) :: story)

mutual

/-- The members of a message, or of an entry of a group, whose block starts at a
place: the plain fields, then the groups, then the data. -/
inductive Story (order : ByteOrder) : Nat → List Field → List Told → Prop where
  | mk {start : Nat} {fields : List Field} {plains groups data : List Told} :
      PlainStory start (fields.filter Field.isPlain) plains →
      GroupStory order (fields.filter Field.isGroup) groups →
      DataStory order (fields.filter Field.isData) data →
      Story order start fields (plains ++ (groups ++ data))

/-- Each group in order: how many entries there are, then the entries. -/
inductive GroupStory (order : ByteOrder) : List Field → List Told → Prop where
  | nil : GroupStory order [] []
  | cons {info : FieldInfo} {dimension : DataType} {declared : Int32} {inner rest : List Field}
      {owner : Token} {total : Nat} {entries story : List Told} :
      IsOpening (.group info dimension declared inner) owner →
      EntryStory order owner inner total 0 entries → GroupStory order rest story →
      GroupStory order (.group info dimension declared inner :: rest)
        (.notice (.groupHeader owner total) :: (entries ++ story))

/-- The entries of a group from one on, up to the last. -/
inductive EntryStory (order : ByteOrder) : Token → List Field → Nat → Nat → List Told → Prop where
  | done {owner : Token} {inner : List Field} {total : Nat} :
      EntryStory order owner inner total total []
  | next {owner : Token} {inner : List Field} {total entry start : Nat} {story rest : List Told} :
      entry < total → Story order start inner story →
      EntryStory order owner inner total (entry + 1) rest →
      EntryStory order owner inner total entry
        (.notice (.beginGroup owner entry total) ::
          (story ++ .notice (.endGroup owner entry total) :: rest))

end

inductive MessageStory (order : ByteOrder) (message : Message) (start : Nat) :
    List Notice → Prop where
  | mk {story : List Told} {first last : Token} {inside : List Token} :
      messageTokens order message = first :: (inside ++ [last]) →
      last.signal = .endMessage → Story order start message.fields story →
      MessageStory order message start
        (.beginMessage first :: (story.flatMap (Told.notices order) ++ [.endMessage last]))

/-- What is told by one of some stories. -/
def Tells (order : ByteOrder) (stories : List Told → Prop) (notices : List Notice) : Prop :=
  ∃ story, stories story ∧ notices = story.flatMap (Told.notices order)

theorem isOpening_of_recount {order : ByteOrder} {starts : List Nat} {base : Nat} {field : Field}
    {rest : List Field} {token : Token} {run : List Token}
    (h : recount (wrapped order starts base (field :: rest)) = token :: run) :
    IsOpening field token := by
  have hsame := Token.uncounted_recount (nested_wrapped order (field :: rest) starts base)
  rw [h, wrapped_cons, wrap] at hsame
  exact ⟨_, (List.cons.inj hsame).1⟩

theorem toIndex_eq_ok {offset : Int} {owner : String} {index : Nat}
    (h : toIndex (Int32.ofInt offset) owner = .ok index) (start : Nat) :
    start + index = placeBehind start offset := by
  unfold toIndex at h
  split at h
  · cases h
  · cases h
    rfl

mutual

theorem obeys_walkType (order : ByteOrder) : ∀ (type : DataType) (offset : Int)
    (field : Option FieldInfo), (typeTokens order offset field type).length ≤ maxCount →
    ∀ (owner : Token) (start : Nat),
    Obeys (fun _ listen => walkType listen owner (placeBehind start offset)
      (recount (typeTokens order offset field type)))
      (· = typeNotices order owner start offset field type)
  | .encoded info type, offset, field, _, owner, start => by
    rw [typeTokens, Token.recount_leaf rfl rfl .nil, typeNotices]
    exact .tell _
  | .enum info type, offset, field, hlength, owner, start => by
    rw [typeTokens] at hlength ⊢
    obtain ⟨last, hrun, -⟩ :=
      exists_bracketedRun rfl (nested_namedTokens order rfl rfl _ type.values) hlength
    rw [typeNotices]
    unfold enumTokens
    rw [hrun]
    exact .tell _
  | .set info type, offset, field, hlength, owner, start => by
    rw [typeTokens] at hlength ⊢
    obtain ⟨last, hrun, -⟩ :=
      exists_bracketedRun rfl (nested_namedTokens order rfl rfl _ type.choices) hlength
    rw [typeNotices]
    unfold setTokens
    rw [hrun]
    exact .tell _
  | .composite info members, offset, field, hlength, owner, start => by
    rw [typeNotices]
    rw [typeTokens] at hlength ⊢
    obtain ⟨last, hrun, -⟩ :=
      exists_bracketedRun rfl (nested_memberTokens order members 0) hlength
    have hinside : (memberTokens order 0 members).length ≤ maxCount := by
      rw [length_bracketed] at hlength
      omega
    have hmembers := obeys_members order members 0 hinside (placeBehind start offset) last
    rw [hrun]
    refine .congr (fun _ listen => composite.eq_2 ..) ?_
    exact .append (.tell _) fun _ => .append hmembers fun _ => .tell _

theorem obeys_members (order : ByteOrder) : ∀ (members : List DataType) (offset : Int),
    (memberTokens order offset members).length ≤ maxCount →
    ∀ (start : Nat) (last : Token),
    Obeys (fun _ listen =>
      Walk.members listen start (recount (memberTokens order offset members) ++ [last]))
      (· = memberNotices order start offset members)
  | [], offset, _, start, last => by
    rw [memberTokens, memberNotices]
    exact .congr (fun _ listen => members.eq_2 ..) (.pure () rfl)
  | member :: rest, offset, hlength, start, last => by
    rw [memberTokens_cons, List.length_append] at hlength
    obtain ⟨token, others, hrun, hwhole, -, hoffset, -, -, hsignal⟩ :=
      exists_typeRun order member (member.start offset) none (by omega)
    have hfirst := obeys_walkType order member (member.start offset) none (by omega) token start
    have hothers := obeys_members order rest (member.start offset + member.encodedLength)
      (by omega) start last
    rw [memberNotices, memberTokens_cons, Token.recount_append
      (nested_typeTokens order member _ none) (nested_memberTokens order rest _), List.append_assoc]
    rw [hrun] at hfirst ⊢
    refine .congr (fun _ listen => members_append listen start hwhole hsignal (by simp)) ?_
    refine .certain (fun index hindex => ?_) ⟨_, rfl⟩
    rw [hoffset] at hindex
    rw [toIndex_eq_ok hindex]
    exact .append hfirst fun _ => hothers

end

def Joined (first second : List Told → Prop) (story : List Told) : Prop :=
  ∃ a b, first a ∧ second b ∧ story = a ++ b

section
variable {α β : Type} {order : ByteOrder} {first second stories : List Told → Prop}

theorem Obeys.joined {f : ∀ σ : Type, Listener σ → Walking σ α}
    {g : α → ∀ σ : Type, Listener σ → Walking σ β} (h : Obeys f (Tells order first))
    (hnext : ∀ value, Obeys (g value) (Tells order second)) (hsecond : ∃ story, second story) :
    Obeys (fun σ listen => f σ listen >>= fun value => g value σ listen)
      (Tells order (Joined first second)) := by
  obtain ⟨story, hstory⟩ := hsecond
  refine h.bind hnext ⟨_, story, hstory, rfl⟩ ?_
  rintro _ _ ⟨a, ha, rfl⟩ ⟨b, hb, rfl⟩
  exact ⟨a ++ b, ⟨a, b, ha, hb, rfl⟩, List.flatMap_append.symm⟩

theorem Obeys.told {notice : Notice} {g : ∀ σ : Type, Listener σ → Walking σ β}
    (hnext : Obeys g (Tells order second)) (hsecond : ∃ story, second story)
    (h : ∀ story, second story → stories (.notice notice :: story)) :
    Obeys (fun σ listen => listen notice >>= fun _ => g σ listen) (Tells order stories) := by
  obtain ⟨story, hstory⟩ := hsecond
  refine hnext.tellThen ⟨_, story, hstory, rfl⟩ ?_
  rintro _ ⟨rest, hrest, rfl⟩
  exact ⟨_, h rest hrest, rfl⟩

theorem Obeys.retold {f : ∀ σ : Type, Listener σ → Walking σ α} (h : Obeys f (Tells order first))
    (himp : ∀ story, first story → stories story) : Obeys f (Tells order stories) := by
  refine h.mono ?_
  rintro _ ⟨story, hstory, rfl⟩
  exact ⟨story, himp story hstory, rfl⟩

end

theorem exists_isOpening (field : Field) : ∃ token, IsOpening field token :=
  ⟨fieldToken (opens field) field.info 0, 0, rfl⟩

theorem exists_plainStory (start : Nat) {fields : List Field}
    (hplains : ∀ field ∈ fields, field.isPlain = true) :
    ∃ story, PlainStory start fields story := by
  induction fields with
  | nil => exact ⟨[], .nil⟩
  | cons field rest ih =>
    obtain ⟨story, hstory⟩ := ih fun other hother => hplains other (List.mem_cons_of_mem _ hother)
    have hkind := hplains field List.mem_cons_self
    cases field with
    | plain info type =>
      obtain ⟨owner, howner⟩ := exists_isOpening (.plain info type)
      exact ⟨_, .cons howner hstory⟩
    | group => cases hkind
    | data => cases hkind

/-- However a walk fails at a group, its header could have said that the group
is empty. -/
theorem exists_groupStory (order : ByteOrder) {fields : List Field}
    (hgroups : ∀ field ∈ fields, field.isGroup = true) :
    ∃ story, GroupStory order fields story := by
  induction fields with
  | nil => exact ⟨[], .nil⟩
  | cons field rest ih =>
    obtain ⟨story, hstory⟩ := ih fun other hother => hgroups other (List.mem_cons_of_mem _ hother)
    have hkind := hgroups field List.mem_cons_self
    cases field with
    | plain => cases hkind
    | group info dimension declared inner =>
      obtain ⟨owner, howner⟩ := exists_isOpening (.group info dimension declared inner)
      exact ⟨_, .cons howner (.done : EntryStory order owner inner 0 0 []) hstory⟩
    | data => cases hkind

theorem member_append {run : List Token} {name : String} {token : Token}
    (h : run.find? (fun token => token.signal = .encoding && token.name = name) = some token)
    (tail : List Token) (owner : Token) : member (run ++ tail) name owner = .ok token := by
  rw [member, List.find?_append, h]
  rfl

theorem obeys_fields (order : ByteOrder) (starts : List Nat) (index : Nat) {tail : List Token}
    (htail : Token.lead? tail ≠ some .beginField) {plains : List Field}
    (hplains : ∀ field ∈ plains, field.isPlain = true) {base : Nat}
    (hlength : (wrapped order starts base plains).length ≤ maxCount) :
    Obeys (fun _ listen => fields listen index (recount (wrapped order starts base plains) ++ tail))
      (Tells order (PlainStory index plains)) := by
  induction plains generalizing base with
  | nil =>
    rw [wrapped_nil]
    exact .congr (fun _ listen => fields_of_lead?_ne listen index htail) (.pure () ⟨[], .nil, rfl⟩)
  | cons field rest ih =>
    obtain ⟨token, last, next, hrun, hwhole, hsignal, -, hinside, hrest⟩ :=
      exists_fieldRun order starts base field rest hlength
    have hopening := isOpening_of_recount hrun
    have hplainsRest := fun other hother => hplains other (List.mem_cons_of_mem _ hother)
    have hothers := ih hplainsRest hrest
    have hkind := hplains field List.mem_cons_self
    cases field with
    | group => cases hkind
    | data => cases hkind
    | plain info type =>
      rw [body] at hrun hwhole hinside
      obtain ⟨first, inside, htype, -, -, hoffset, -⟩ :=
        exists_typeRun order type info.computedOffset info hinside
      have hfirst := obeys_walkType order type info.computedOffset info hinside token index
      rw [htype] at hrun hwhole hfirst
      have hfield : Obeys
          (fun _ listen => field listen index token (token :: (first :: inside ++ [last])))
          (· = typeNotices order token index info.computedOffset info type) := by
        refine .congr (fun _ listen => field_bracketed listen index token) ?_
        refine .certain (fun place hplace => ?_) ⟨_, rfl⟩
        rw [hoffset] at hplace
        rw [toIndex_eq_ok hplace]
        exact hfirst
      rw [hrun, List.append_assoc]
      refine .congr (fun _ listen => fields_append listen index hwhole hsignal _) ?_
      obtain ⟨story, hstory⟩ := exists_plainStory index hplainsRest
      refine hfield.bind (fun _ => hothers) ⟨_, story, hstory, rfl⟩ ?_
      rintro _ _ rfl ⟨story, hstory, rfl⟩
      exact ⟨_, .cons hopening hstory, rfl⟩

section
variable {types : Table String DataType} {version : Int32} {order : ByteOrder}

theorem exists_isContent {info : FieldInfo} {type : DataType}
    (hvalid : (Field.data info type).Valid types version) :
    ∃ token, IsContent order info type token := by
  cases hvalid with
  | data _ _ _ _ hcontent =>
    rw [DataType.asVarData_composite]
    obtain ⟨content, hfound, -⟩ := DataType.isVariable_content hcontent
    exact exists_found order (Option.isSome_of_eq_some hfound) _ _ _

theorem exists_dataStory {fields : List Field}
    (hvalid : ∀ field ∈ fields, field.Valid types version)
    (hdata : ∀ field ∈ fields, field.isData = true) : ∃ story, DataStory order fields story := by
  induction fields with
  | nil => exact ⟨[], .nil⟩
  | cons field rest ih =>
    obtain ⟨story, hstory⟩ := ih
      (fun other hother => hvalid other (List.mem_cons_of_mem _ hother))
      (fun other hother => hdata other (List.mem_cons_of_mem _ hother))
    have hkind := hdata field List.mem_cons_self
    cases field with
    | plain => cases hkind
    | group => cases hkind
    | data info type =>
      obtain ⟨owner, howner⟩ := exists_isOpening (.data info type)
      obtain ⟨content, hcontent⟩ := exists_isContent (hvalid _ List.mem_cons_self)
      exact ⟨.notice (.varData owner 0 0 content) :: story, .cons howner hcontent hstory⟩

theorem obeys_data (starts : List Nat) (buffer : List UInt8) {tail : List Token}
    (htail : Token.lead? tail ≠ some .beginVarData) {fields : List Field}
    (hvalid : ∀ field ∈ fields, field.Valid types version)
    (hdata : ∀ field ∈ fields, field.isData = true) {base : Nat}
    (hlength : (wrapped order starts base fields).length ≤ maxCount) (index : Nat) :
    Obeys (fun _ listen =>
      data listen buffer index (recount (wrapped order starts base fields) ++ tail))
      (Tells order (DataStory order fields)) := by
  induction fields generalizing base index with
  | nil =>
    rw [wrapped_nil]
    exact .congr (fun _ listen => data_of_lead?_ne listen buffer index htail)
      (.pure index ⟨[], .nil, rfl⟩)
  | cons field rest ih =>
    obtain ⟨token, last, next, hrun, hwhole, hsignal, -, hinside, hrest⟩ :=
      exists_fieldRun order starts base field rest hlength
    have hopening := isOpening_of_recount hrun
    have hvalidRest := fun other hother => hvalid other (List.mem_cons_of_mem _ hother)
    have hdataRest := fun other hother => hdata other (List.mem_cons_of_mem _ hother)
    have hothers := fun index => ih hvalidRest hdataRest hrest index
    obtain ⟨story, hstory⟩ : ∃ story, DataStory order (field :: rest) story :=
      exists_dataStory hvalid hdata
    obtain ⟨more, hmore⟩ : ∃ more, DataStory order rest more :=
      exists_dataStory hvalidRest hdataRest
    have hkind := hdata field List.mem_cons_self
    cases field with
    | plain => cases hkind
    | group => cases hkind
    | data info type =>
      obtain ⟨content, hcontent⟩ : ∃ content, IsContent order info type content :=
        exists_isContent (hvalid _ List.mem_cons_self)
      rw [body] at hrun hwhole
      rw [hrun, List.append_assoc]
      refine .congr (fun _ listen => data_append listen buffer index hwhole hsignal _) ?_
      rw [member_append hcontent]
      refine .certain (fun _ _ => ?_) ⟨_, story, hstory, rfl⟩
      refine .certain (fun length _ => ?_) ⟨_, story, hstory, rfl⟩
      refine .certain (fun _ hfound => ?_) ⟨_, story, hstory, rfl⟩
      cases hfound
      refine .certain (fun offset _ => ?_) ⟨_, story, hstory, rfl⟩
      split
      · exact .throw _ ⟨_, story, hstory, rfl⟩
      · exact (hothers _).told ⟨more, hmore⟩ fun _ hstory => .cons hopening hcontent hstory

theorem exists_story {fields : List Field} (hvalid : ∀ field ∈ fields, field.Valid types version)
    (start : Nat) : ∃ story, Story order start fields story := by
  obtain ⟨plains, hplains⟩ := exists_plainStory start
    (fun field hfield => (List.mem_filter.mp hfield).2 : ∀ field ∈ fields.filter Field.isPlain, _)
  obtain ⟨groups, hgroups⟩ := exists_groupStory order
    (fun field hfield => (List.mem_filter.mp hfield).2 : ∀ field ∈ fields.filter Field.isGroup, _)
  obtain ⟨data, hdata⟩ := exists_dataStory
    (fun field hfield => hvalid field (List.mem_filter.mp hfield).1)
    (fun field hfield => (List.mem_filter.mp hfield).2 : ∀ field ∈ fields.filter Field.isData, _)
  exact ⟨_, .mk hplains hgroups hdata⟩

theorem exists_entryStory {inner : List Field} (hvalid : ∀ field ∈ inner, field.Valid types version)
    (owner : Token) (entry left : Nat) :
    ∃ story, EntryStory order owner inner (entry + left) entry story := by
  induction left generalizing entry with
  | zero => exact ⟨[], .done⟩
  | succ left ih =>
    obtain ⟨story, hstory⟩ : ∃ story, Story order 0 inner story := exists_story hvalid 0
    obtain ⟨rest, hrest⟩ := ih (entry + 1)
    rw [Nat.add_right_comm] at hrest
    exact ⟨_, .next (by omega) hstory hrest⟩

/-- A group fails before its header is told, or is told entry by entry. -/
theorem obeys_groups (starts : List Nat) (buffer : List UInt8) {tail : List Token}
    (htail : Token.lead? tail ≠ some .beginGroup) {fields : List Field}
    (hvalid : ∀ field ∈ fields, field.Valid types version)
    (hgroups : ∀ field ∈ fields, field.isGroup = true)
    (hentries : ∀ info dimension declared inner, .group info dimension declared inner ∈ fields →
      ∀ starts base, (wrapped order starts base inner).length ≤ maxCount →
      ∀ owner blockLength entry left index,
      Obeys (fun _ listen => entries listen buffer owner (recount (wrapped order starts base inner))
        blockLength (entry + left) left index)
        (Tells order (EntryStory order owner inner (entry + left) entry)))
    {base : Nat} (hlength : (wrapped order starts base fields).length ≤ maxCount) (index : Nat) :
    Obeys (fun _ listen =>
      groups listen buffer index (recount (wrapped order starts base fields) ++ tail))
      (Tells order (GroupStory order fields)) := by
  induction fields generalizing base index with
  | nil =>
    rw [wrapped_nil]
    exact .congr (fun _ listen => groups_of_lead?_ne listen buffer index htail)
      (.pure index ⟨[], .nil, rfl⟩)
  | cons field rest ih =>
    have hgroupsRest := fun other hother => hgroups other (List.mem_cons_of_mem _ hother)
    obtain ⟨story, hstory⟩ := exists_groupStory order hgroups
    obtain ⟨more, hmore⟩ := exists_groupStory order hgroupsRest
    have hkind := hgroups field List.mem_cons_self
    cases field with
    | plain => cases hkind
    | data => cases hkind
    | group info dimension declared inner =>
      obtain ⟨token, last, next, innerStarts, innerBase, hrun, hwhole, htype, hsignal, -, -,
        hinnerLength, hrestLength⟩ :=
        exists_groupRun order starts base info dimension declared inner rest hlength
      have hopening := isOpening_of_recount hrun
      have hothers := ih (fun other hother => hvalid other (List.mem_cons_of_mem _ hother))
        hgroupsRest (fun info dimension declared inner hmem =>
          hentries info dimension declared inner (List.mem_cons_of_mem _ hmem)) hrestLength
      have hinner : ∀ field ∈ inner, field.Valid types version := by
        cases hvalid _ List.mem_cons_self
        assumption
      rw [hrun, List.append_assoc]
      refine .congr (fun _ listen => groups_append listen buffer index hwhole hsignal _) ?_
      refine .certain (fun size _ => ?_) ⟨_, story, hstory, rfl⟩
      rw [Token.groupBody_bracketed _ _ htype]
      have hinside := hentries info dimension declared inner List.mem_cons_self
        innerStarts innerBase hinnerLength token size.blockLength 0 size.entries size.start
      obtain ⟨entries, hentries⟩ : ∃ story,
          EntryStory order token inner (0 + size.entries) 0 story :=
        exists_entryStory hinner token 0 size.entries
      rw [Nat.zero_add] at hinside hentries
      refine .told (hinside.joined hothers ⟨more, hmore⟩)
        ⟨_, entries, more, hentries, hmore, rfl⟩ ?_
      rintro _ ⟨a, b, ha, hb, rfl⟩
      exact .cons hopening ha hb

/-- The walk over what is inside a message or an entry, with its block at
`index` and the first group where `start` says, if anywhere. -/
def inside {σ : Type} (listen : Listener σ) (buffer : List UInt8) (index : Nat)
    (start : Except WalkFault Nat) (run : List Token) : Walking σ Nat := do
  fields listen index run
  let next ← certain start
  let next ← groups listen buffer next (Token.skip .beginField run)
  data listen buffer next (Token.skip .beginGroup (Token.skip .beginField run))

theorem contents_eq_inside {σ : Type} (listen : Listener σ) (buffer : List UInt8) (index next : Nat)
    (run : List Token) :
    contents listen buffer index next run = inside listen buffer index (.ok next) run := by
  simp only [contents, inside, certain_ok, pure_bind]

theorem entries_inside {σ : Type} (listen : Listener σ) (buffer : List UInt8) (group : Token)
    (run : List Token) (blockLength total left index : Nat) :
    entries listen buffer group run blockLength total (left + 1) index = (do
      listen (.beginGroup group (total - (left + 1)) total)
      let next ← inside listen buffer index (advance buffer index blockLength group) run
      listen (.endGroup group (total - (left + 1)) total)
      entries listen buffer group run blockLength total left next) := by
  rw [entries]
  simp only [inside, bind_assoc]

/-- Entries are told one by one, each between its own two notices. -/
theorem obeys_entries {starts : List Nat} {base : Nat} {buffer : List UInt8} {inner : List Field}
    (hvalid : ∀ field ∈ inner, field.Valid types version)
    (hinside : ∀ index start, Obeys (fun _ listen =>
      inside listen buffer index start (recount (wrapped order starts base inner)))
      (Tells order (Story order index inner)))
    (owner : Token) (blockLength entry left index : Nat) :
    Obeys (fun _ listen => entries listen buffer owner (recount (wrapped order starts base inner))
      blockLength (entry + left) left index)
      (Tells order (EntryStory order owner inner (entry + left) entry)) := by
  induction left generalizing entry index with
  | zero => exact .congr (fun _ listen => entries.eq_1 ..) (.pure index ⟨[], .done, rfl⟩)
  | succ left ih =>
    have hentry : entry + (left + 1) - (left + 1) = entry := by omega
    have hothers := ih (entry + 1)
    obtain ⟨rest, hrest⟩ : ∃ story,
        EntryStory order owner inner (entry + 1 + left) (entry + 1) story :=
      exists_entryStory hvalid owner (entry + 1) left
    obtain ⟨story, hstory⟩ : ∃ story, Story order index inner story := exists_story hvalid index
    rw [Nat.add_right_comm] at hothers hrest
    refine .congr (fun _ listen => entries_inside listen ..) ?_
    rw [hentry]
    have hbehind : ∀ next, Obeys (fun _ listen =>
        listen (.endGroup owner entry (entry + (left + 1))) >>=
        fun _ => entries listen buffer owner (recount (wrapped order starts base inner)) blockLength
          (entry + (left + 1)) left next)
        (Tells order fun story => ∃ rest, story =
          .notice (.endGroup owner entry (entry + left + 1)) :: rest ∧
          EntryStory order owner inner (entry + left + 1) (entry + 1) rest) := fun next =>
      (hothers next).told ⟨rest, hrest⟩ fun story hstory => ⟨story, rfl, hstory⟩
    refine .told ((hinside _ _).joined hbehind ⟨_, rest, rfl, hrest⟩)
      ⟨_, story, _, hstory, ⟨rest, rfl, hrest⟩, rfl⟩ ?_
    rintro _ ⟨a, _, ha, ⟨b, rfl, hb⟩, rfl⟩
    exact .next (by omega) ha hb

/-- The plain fields, the groups and the data are told in this order. -/
theorem obeys_inside (buffer : List UInt8) {fields : List Field} :
    ∀ {starts : List Nat} {base : Nat} {last : List Token},
    (∀ field ∈ fields, field.Valid types version) → Field.Siblings fields →
    (wrapped order starts base fields).length ≤ maxCount → Stops last →
    ∀ (index : Nat) (start : Except WalkFault Nat), Obeys (fun _ listen =>
      inside listen buffer index start (recount (wrapped order starts base fields) ++ last))
      (Tells order (Story order index fields)) := by
  induction fields using Field.nesting with
  | step fields ih =>
    intro starts base last hvalid hsiblings hlength hlast index start
    obtain ⟨second, third, hsplit⟩ := exists_split order starts hsiblings hlength last
    have hplains : ∀ field ∈ fields.filter Field.isPlain, field.isPlain = true :=
      fun field hfield => (List.mem_filter.mp hfield).2
    have hgroups : ∀ field ∈ fields.filter Field.isGroup, field.isGroup = true :=
      fun field hfield => (List.mem_filter.mp hfield).2
    have hdata : ∀ field ∈ fields.filter Field.isData, field.isData = true :=
      fun field hfield => (List.mem_filter.mp hfield).2
    have hfirst := obeys_fields order starts index (hsplit.lead?_groups hlast) hplains hsplit.plains
    have hnext := obeys_groups starts buffer (hsplit.lead?_data hlast.2.1 (by decide))
      (fun field hfield => hvalid field (List.mem_filter.mp hfield).1) hgroups (by
        intro info dimension declared inner hmem innerStarts innerBase hinner
        have hmember := (List.mem_filter.mp hmem).1
        cases hvalid _ hmember with
        | group _ _ _ _ hinside hsiblingsInside =>
          refine obeys_entries hinside fun index start => ?_
          have hobeys := ih info _ declared inner hmember hinside hsiblingsInside hinner stops_nil
            index start
          rwa [List.append_nil] at hobeys) hsplit.groups
    have hothers := obeys_data starts buffer hlast.2.2
      (fun field hfield => hvalid field (List.mem_filter.mp hfield).1) hdata hsplit.data
    obtain ⟨groups, hgroupStory⟩ := exists_groupStory order hgroups
    obtain ⟨data, hdataStory⟩ : ∃ story, DataStory order (fields.filter Field.isData) story :=
      exists_dataStory (fun field hfield => hvalid field (List.mem_filter.mp hfield).1) hdata
    unfold inside
    rw [hsplit.skip_fields hlast, hsplit.skip_groups hlast, hsplit.run]
    have hbehind : Obeys (fun _ listen => do
        let next ← certain start
        let next ← Walk.groups listen buffer next _
        Walk.data listen buffer next _)
        (Tells order (Joined (GroupStory order _) (DataStory order _))) :=
      .certain (fun next _ => (hnext next).joined hothers ⟨data, hdataStory⟩)
        ⟨_, _, ⟨groups, data, hgroupStory, hdataStory, rfl⟩, rfl⟩
    refine (hfirst.joined (fun _ => hbehind)
      ⟨_, groups, data, hgroupStory, hdataStory, rfl⟩).retold ?_
    rintro _ ⟨a, _, ha, ⟨b, c, hb, hc, rfl⟩, rfl⟩
    exact .mk ha hb hc

theorem signal_endMessage {message : Message} {first last : Token} {inside : List Token}
    (hlength : (messageTokens order message).length ≤ maxCount)
    (h : messageTokens order message = first :: (inside ++ [last])) :
    last.signal = .endMessage := by
  have hnested := nested_messageFields order message
  rw [messageTokens_eq, Token.length_recount (nested_bracketed rfl hnested)] at hlength
  obtain ⟨closing, hrun, -, hclosing⟩ := exists_bracketedRun rfl hnested hlength
  rw [messageTokens_eq, hrun] at h
  have hends : [closing] = [last] := List.append_inj_right' (List.cons.inj h).2 rfl
  cases hends
  exact congrArg Token.signal hclosing

theorem exists_messageWalk {message : Message} (hsiblings : Field.Siblings message.fields)
    (hlength : (messageTokens order message).length ≤ maxCount) (offset blockLength : Nat) :
    ∃ token last, messageTokens order message =
        token :: (recount (messageFields order message) ++ [last]) ∧
      token.name = message.name ∧ token.id = message.id ∧ last.name = message.name ∧
      last.signal = .endMessage ∧ Stops [last] ∧ (messageFields order message).length ≤ maxCount ∧
      ∀ (buffer : List UInt8) {σ : Type} (listen : Listener σ),
        Walk.message listen buffer offset blockLength (messageTokens order message) = (do
          listen (.beginMessage token)
          let next ← inside listen buffer offset (.ok (offset + blockLength))
            (recount (messageFields order message) ++ [last])
          listen (.endMessage last)
          pure next) := by
  obtain ⟨token, last, hrun, hsignal, hname, hid, hlastName, -, hstops, hinside⟩ :=
    exists_messageRun order message hlength
  obtain ⟨second, third, hsplit⟩ := exists_split order _ hsiblings hinside [last]
  have hend : Token.skip .beginVarData (Token.skip .beginGroup (Token.skip .beginField
      (recount (messageFields order message) ++ [last]))) = [last] := by
    rw [messageFields, hsplit.skip_fields hstops, hsplit.skip_groups hstops,
      hsplit.skip_data hstops]
  refine ⟨token, last, hrun, hname, hid, hlastName, signal_endMessage hlength hrun,
    hstops, hinside, ?_⟩
  intro buffer σ listen
  rw [hrun, message_cons listen buffer _ _ hsignal, hend, contents_eq_inside]
  rfl

theorem obeys_message {message : Message} (hrow : Field.Row types version message.fields)
    (hlength : (messageTokens order message).length ≤ maxCount) (buffer : List UInt8)
    (offset blockLength : Nat) :
    Obeys (fun _ listen =>
      Walk.message listen buffer offset blockLength (messageTokens order message))
      (MessageStory order message offset) := by
  obtain ⟨token, last, hrun, -, -, -, hlast, hstops, hinside, hwalk⟩ :=
    exists_messageWalk hrow.siblings hlength offset blockLength
  have hcontent := obeys_inside buffer hrow.valid hrow.siblings hinside hstops offset
    (.ok (offset + blockLength))
  obtain ⟨story, hstory⟩ : ∃ story, Story order offset message.fields story :=
    exists_story hrow.valid offset
  have hbehind : Obeys (fun _ listen => do
      let next ← inside listen buffer offset (.ok (offset + blockLength))
        (recount (messageFields order message) ++ [last])
      listen (.endMessage last)
      pure next)
      (fun notices => ∃ before, Tells order (Story order offset message.fields) before ∧
        notices = before ++ [.endMessage last]) := by
    have hclose : ∀ next : Nat, Obeys (fun _ listen => do listen (.endMessage last); pure next)
        (· = [.endMessage last]) := fun next =>
      .append (.tell _) fun _ => .pure next rfl
    exact hcontent.bind hclose ⟨_, rfl⟩ fun before _ hbefore hend => ⟨before, hbefore, hend ▸ rfl⟩
  refine .congr (fun _ listen => hwalk buffer listen) ?_
  refine .tellThen hbehind ⟨_, _, ⟨story, hstory, rfl⟩, rfl⟩ ?_
  rintro _ ⟨_, ⟨story, hstory, rfl⟩, rfl⟩
  exact .mk hrun hlast hstory

end

end Walk
end SimpleBinary
