import SimpleBinary.Proofs.Schema.Types
import SimpleBinary.Schema.MessageReader

/-! The messages of an accepted schema, as they are read: fields that are
valid at every depth, in order and told apart by name and identity. -/
namespace SimpleBinary.MessageReader
open Check (Yields)
open Xml (Element)

section
variable (vocabulary : Vocabulary) (element : Element)

theorem yields_fieldInfo (name : String) (id : Int32) (presence : Presence) :
    Yields (fieldInfo vocabulary element name id presence) fun info =>
      info.Valid vocabulary.version ∧ info.declared = info := by
  unfold fieldInfo
  refine .bind (Check.yields_name name) fun _ => ?_
  refine .bind (element.yields_word "offset" 0) fun offset => ?_
  refine .bind element.yields_presence? fun presence => ?_
  refine .bind (element.yields_word "sinceVersion" 0) fun sinceVersion => ?_
  refine .bind (element.yields_word "deprecated" 0) fun deprecated => ?_
  refine .bind (element.yields_word "refId" invalidId) fun refId => ?_
  refine .refuse (.pure ?_)
  intro hversion _ _ _ _ _ hname
  have hdefault : ∀ key default, default ≠ "" → (element.attribute? key).getD default ≠ "" := by
    intro key default hdefault
    cases hattribute : element.attribute? key with
    | none => exact hdefault
    | some value => exact fun hempty => element.attribute?_ne_empty key (hempty ▸ hattribute)
  refine ⟨?_, rfl⟩
  exact {
    name := hname
    description := element.attribute?_ne_empty _
    semanticType := element.attribute?_ne_empty _
    epoch := hdefault _ _ (by decide)
    timeUnit := hdefault _ _ (by decide)
    valueRef := element.attribute?_ne_empty _
    sinceVersion := hversion }

theorem yields_checkConstant (enumName reference : String) (enum : EnumType) (type : DataType) :
    Yields (checkConstant enumName reference enum type) fun _ => True := by
  unfold checkConstant
  split
  · split
    · exact (Yields.error _).mono fun _ _ => trivial
    · exact .pure trivial
  · split
    · exact .pure trivial
    · exact (Yields.error _).mono fun _ _ => trivial
  · exact (Yields.error _).mono fun _ _ => trivial

theorem yields_checkValueRef (info : FieldInfo) (type : DataType) (reference : String) :
    Yields (checkValueRef vocabulary info type reference) fun _ =>
      Field.RefersTo vocabulary.types reference := by
  unfold checkValueRef
  split
  · exact (Yields.error _).mono fun _ h => h.elim
  · next enumName valueName hdotted =>
    split
    · exact (Yields.error _).mono fun _ h => h.elim
    · next enum henum =>
      refine .refuse ?_
      have hrefers : ¬ (enum.value? valueName).isNone = true →
          Field.RefersTo vocabulary.types reference := by
        intro hvalue
        refine ⟨enumName, valueName, enum, hdotted, henum, ?_⟩
        exact Option.isSome_iff_ne_none.mpr (by simpa using hvalue)
      split
      · exact (yields_checkConstant enumName reference enum type).mono fun _ _ => hrefers
      · exact .pure hrefers

theorem yields_checkField (info : FieldInfo) (type : DataType) :
    Yields (checkField vocabulary info type) fun _ =>
      ∀ reference ∈ info.valueRef, Field.RefersTo vocabulary.types reference := by
  unfold checkField
  cases info.valueRef with
  | none =>
    dsimp only
    split
    · exact .guard (.guard (.pure nofun))
    · exact .guard (.pure nofun)
  | some reference =>
    have hrefers : Yields (checkValueRef vocabulary info type reference) fun _ =>
        ∀ other ∈ some reference, Field.RefersTo vocabulary.types other := by
      refine (yields_checkValueRef vocabulary info type reference).mono fun _ hrefers => ?_
      rintro _ ⟨⟩
      exact hrefers
    dsimp only
    split
    · exact .guard (.guard hrefers)
    · exact .guard hrefers

end

theorem yields_dimension (composite : String) (members : List DataType) :
    Yields (Check.dimension composite members) fun _ =>
      DataType.Measures members "blockLength" ∧ DataType.Measures members "numInGroup" := by
  unfold Check.dimension
  cases hcount : DataType.encodedMember? members "numInGroup" with
  | none =>
    dsimp only
    split
    · exact .bind (.error _) fun _ => (Yields.error _).mono fun _ h _ => h.elim
    · exact .refuse ((Yields.error _).mono fun _ h => h.elim)
  | some count =>
    have hunsigned : Yields (if !count.primitive.isUnsigned then
        Check.error (.memberUnsigned "numInGroup" composite)
        else if !Check.isNarrow count.primitive then
          Check.warning (.memberShouldBeNarrow "numInGroup" composite)
        else pure ()) fun _ => DataType.Measures members "numInGroup" := by
      split
      · exact (Yields.error _).mono fun _ h => h.elim
      · next hunsigned =>
        have hmeasures : DataType.Measures members "numInGroup" :=
          ⟨count, hcount, by simpa using hunsigned⟩
        split
        · exact (Yields.warning _).mono fun _ _ => hmeasures
        · exact .pure hmeasures
    dsimp only
    split
    · exact .bind (.error _) fun _ => hunsigned.mono fun _ _ h => h.elim
    · next type htype =>
      refine .refuse (hunsigned.mono fun _ hmeasures hlength => ⟨?_, hmeasures⟩)
      exact ⟨type, htype, by simpa using hlength⟩

theorem yields_varData (composite : String) (members : List DataType) :
    Yields (Check.varData composite members) fun _ =>
      DataType.Measures members "length" ∧
        (DataType.encodedMember? members "varData").isSome = true := by
  have hdata : Yields (if (DataType.encodedMember? members "varData").isNone then
      Check.error (.varDataWithout "varData" composite) else pure ()) fun _ =>
      (DataType.encodedMember? members "varData").isSome = true := by
    split
    · exact (Yields.error _).mono fun _ h => h.elim
    · next h => exact .pure (Option.isSome_iff_ne_none.mpr (by simpa using h))
  unfold Check.varData
  dsimp only
  split
  · exact .bind (.error _) fun _ => hdata.mono fun _ _ h => h.elim
  · next type htype =>
    split
    · exact .bind (.error _) fun _ => hdata.mono fun _ _ h => h.elim
    · next hunsigned =>
      have hmeasures : DataType.Measures members "length" :=
        ⟨type, htype, by simpa using hunsigned⟩
      exact .warn (hdata.mono fun _ h => ⟨hmeasures, h⟩)

def InOrder (before : Before) (tag : String) : Prop :=
  (tag = "field" → before.group = false ∧ before.data = false) ∧
    (tag = "group" → before.data = false)

theorem yields_checkOrder (before : Before) (element : Element) :
    Yields (checkOrder before element) fun _ => InOrder before element.name := by
  unfold checkOrder
  dsimp only
  split
  · exact (Yields.error _).mono fun _ h => h.elim
  · next hfield =>
    split
    · exact (Yields.error _).mono fun _ h => h.elim
    · next hgroup => exact .pure (by simpa [InOrder] using And.intro hfield hgroup)

def tag : Field → String
  | .plain .. => "field"
  | .group .. => "group"
  | .data .. => "data"

/-- Siblings so far, of kinds that have been seen. -/
structure Read (vocabulary : Vocabulary) (before : Before) (fields : List Field) : Prop where
  row : Field.Row vocabulary.types vocabulary.version fields
  group : before.group = false → ∀ field ∈ fields, tag field ≠ "group"
  data : before.data = false → ∀ field ∈ fields, tag field ≠ "data"

theorem rank_le_of_inOrder {vocabulary : Vocabulary} {before : Before} {fields : List Field}
    {field other : Field} (h : Read vocabulary before fields) (horder : InOrder before (tag field))
    (hother : other ∈ fields) : other.rank ≤ field.rank := by
  cases field with
  | plain info type =>
    obtain ⟨hgroup, hdata⟩ := horder.1 rfl
    have hnogroup := h.group hgroup other hother
    have hnodata := h.data hdata other hother
    cases other with
    | plain => exact Nat.le_refl 0
    | group => exact absurd rfl hnogroup
    | data => exact absurd rfl hnodata
  | group info dimension blockLength fields =>
    have hnodata := h.data (horder.2 rfl) other hother
    cases other with
    | plain => exact Nat.zero_le 1
    | group => exact Nat.le_refl 1
    | data => exact absurd rfl hnodata
  | data info type =>
    have hbound : other.rank ≤ 2 := by cases other <;> simp [Field.rank]
    exact hbound

theorem Read.skip {vocabulary : Vocabulary} {before : Before} {fields : List Field}
    (h : Read vocabulary before fields) (element : Element) :
    Read vocabulary (before.after element) fields where
  row := h.row
  group hgroup := h.group (Bool.or_eq_false_iff.mp hgroup).1
  data hdata := h.data (Bool.or_eq_false_iff.mp hdata).1

theorem Read.append {vocabulary : Vocabulary} {before : Before} {fields : List Field}
    {field : Field} {element : Element} (h : Read vocabulary before fields)
    (hvalid : field.Valid vocabulary.types vocabulary.version) (htag : element.name = tag field)
    (horder : InOrder before element.name)
    (hname : ∀ other ∈ fields, other.name ≠ field.name)
    (hid : field.info.id ≠ invalidId → ∀ other ∈ fields, other.info.id ≠ field.info.id) :
    Read vocabulary (before.after element) (fields ++ [field]) where
  row := {
    valid := by
      intro other hother
      rcases List.mem_append.mp hother with hother | hother
      · exact h.row.valid other hother
      · cases List.mem_singleton.mp hother
        exact hvalid
    siblings := by
      unfold Field.Siblings
      rw [List.map_append]
      refine List.pairwise_append.mpr ⟨h.row.siblings, List.pairwise_singleton _ _, ?_⟩
      intro a ha b hb
      obtain ⟨other, hother, rfl⟩ := List.mem_map.mp ha
      cases List.mem_singleton.mp hb
      refine ⟨rank_le_of_inOrder h (htag ▸ horder) hother, hname other hother, ?_⟩
      intro hvalidId heq
      have hsame : other.info.id = field.info.id := heq
      exact hid (hsame ▸ hvalidId) other hother hsame }
  group := by
    intro hgroup other hother
    obtain ⟨hbefore, hthis⟩ := Bool.or_eq_false_iff.mp hgroup
    rcases List.mem_append.mp hother with hother | hother
    · exact h.group hbefore other hother
    · cases List.mem_singleton.mp hother
      rw [← htag]
      exact of_decide_eq_false hthis
  data := by
    intro hdata other hother
    obtain ⟨hbefore, hthis⟩ := Bool.or_eq_false_iff.mp hdata
    rcases List.mem_append.mp hother with hother | hother
    · exact h.data hbefore other hother
    · cases List.mem_singleton.mp hother
      rw [← htag]
      exact of_decide_eq_false hthis

theorem yields_addField (fields : List Field) (field : Field) :
    Yields (addField fields field) fun result => result = fields ++ [field] ∧
      (∀ other ∈ fields, other.name ≠ field.name) ∧
      (field.info.id ≠ invalidId → ∀ other ∈ fields, other.info.id ≠ field.info.id) := by
  unfold addField
  refine .refuse (.refuse (.pure fun hid hname => ⟨rfl, ?_, ?_⟩))
  · simpa using hname
  · simpa using hid

section
variable {inv : List Field → Prop}
  (hinv : ∀ fields index change, (∀ info : FieldInfo, (change info).unlinked = info.unlinked) →
    inv fields → inv (fields.modify index (·.mapInfo change)))
include hinv

theorem yields_linkGroup (fields : List Field) (index : Nat) (info : FieldInfo) :
    Yields (linkGroup fields index info) fun linked => inv fields → inv linked := by
  unfold linkGroup
  split
  · exact .pure id
  · split
    · refine .pure fun h => ?_
      apply hinv _ _ _ fun _ => by rfl
      exact hinv _ _ _ (fun _ => by rfl) h
    · exact .bind (.warning _) fun _ => .pure fun _ => id

theorem yields_linkData (fields : List Field) (index : Nat) (info : FieldInfo) :
    Yields (linkData fields index info) fun linked => inv fields → inv linked := by
  unfold linkData
  split
  · exact .pure id
  · split
    · refine .pure fun h => ?_
      apply hinv _ _ _ fun _ => by rfl
      exact hinv _ _ _ (fun _ => by rfl) h
    · exact .bind (.warning _) fun _ => .pure fun _ => id

theorem yields_linkFields (fields : List Field) :
    Yields (linkFields fields) fun linked => inv fields → inv linked := by
  unfold linkFields
  refine Yields.foldlM (fun index _ linked => ?_) fields
  split
  · exact .pure id
  · next field hfield =>
    refine .bind (yields_linkGroup hinv linked index field.info) fun grouped => ?_
    refine (yields_linkData hinv grouped index field.info).mono ?_
    exact fun _ hlast hgrouped h => hlast (hgrouped h)

end

theorem yields_linkRow (vocabulary : Vocabulary) (fields : List Field) :
    Yields (linkFields fields) fun linked =>
      Field.Row vocabulary.types vocabulary.version fields →
        Field.Row vocabulary.types vocabulary.version linked := by
  refine yields_linkFields (fun fields index change hchange hrow => ?_) fields
  exact hrow.modify (fun info => FieldInfo.declared_of_unlinked (hchange info)) index

section
variable {vocabulary : Vocabulary} (htypes : TypeReader.Types vocabulary.types) (element : Element)
include htypes

theorem yields_readPlain :
    Yields (readPlain vocabulary element) fun result => ∃ info type,
      result = some (.plain info type) ∧ info.declared = info ∧
        (Field.plain info type).Valid vocabulary.types vocabulary.version := by
  unfold readPlain
  refine .bind (element.yields_required "name") fun name => ?_
  refine .bind (element.yields_requiredWord "id") fun id => ?_
  refine .bind (element.yields_required "type") fun typeName => ?_
  split
  · exact .bind (.error _) fun _ => .pure fun h => h.elim
  · next type htype =>
    refine .bind (yields_fieldInfo vocabulary element name id type.info.presence) fun info => ?_
    refine .bind (yields_checkField vocabulary info type) fun _ => .pure ?_
    rintro hrefers ⟨hinfo, hbare⟩ - - -
    exact ⟨info, type, rfl, hbare, .plain hinfo (htypes.of_get? htype).1 hrefers⟩

theorem yields_readData :
    Yields (readData vocabulary element) fun result => ∃ info type,
      result = some (.data info type) ∧ info.declared = info ∧
        (Field.data info type).Valid vocabulary.types vocabulary.version := by
  unfold readData
  refine .bind (element.yields_required "name") fun name => ?_
  refine .bind (element.yields_requiredWord "id") fun id => ?_
  refine .bind (element.yields_required "type") fun typeName => ?_
  split
  · next typeInfo members htype =>
    refine .bind (yields_varData typeName members) fun _ => ?_
    refine .bind (yields_fieldInfo vocabulary element name id typeInfo.presence)
      fun info => .pure ?_
    rintro ⟨hinfo, hbare⟩ ⟨hlength, hdata⟩ - - -
    obtain ⟨hvalid, rfl⟩ := htypes.of_get? htype
    exact ⟨info, _, rfl, hbare, .data hinfo hvalid htype hlength hdata⟩
  · exact .bind (.error _) fun _ => .pure fun h => h.elim

end

theorem read_nil (vocabulary : Vocabulary) : Read vocabulary {} [] where
  row := ⟨fun _ hfield => (nomatch hfield), .nil⟩
  group _ _ hfield := nomatch hfield
  data _ _ hfield := nomatch hfield

/-- What holds of every field as it is read, and of every row of fields once
they are linked. -/
structure ReadAs (vocabulary : Vocabulary) (one : Field → Prop) (row : List Field → Prop) :
    Prop where
  plain : ∀ info type, info.declared = info → one (.plain info type)
  data : ∀ info type, info.declared = info → one (.data info type)
  group : ∀ info dimension blockLength fields, info.declared = info → row fields →
    one (.group info dimension blockLength fields)
  link : ∀ fields, Field.Row vocabulary.types vocabulary.version fields →
    (∀ field ∈ fields, one field) → Yields (linkFields fields) row

namespace ReadAs
variable {vocabulary : Vocabulary} {one : Field → Prop} {row : List Field → Prop}

/-- Fields that are read side by side are linked once they are all there. -/
theorem yields_linked (h : ReadAs vocabulary one row) {elements : List Element}
    (hread : Yields (readFields vocabulary {} [] elements) fun result =>
      Read vocabulary {} [] → (∀ field ∈ ([] : List Field), one field) →
      (∃ last, Read vocabulary last result) ∧ ∀ field ∈ result, one field) :
    Yields (readFields vocabulary {} [] elements >>= linkFields) fun linked =>
      Field.Row vocabulary.types vocabulary.version linked ∧ row linked := by
  have hall : Yields (readFields vocabulary {} [] elements) fun fields =>
      Field.Row vocabulary.types vocabulary.version fields ∧ ∀ field ∈ fields, one field := by
    refine hread.mono fun fields hfields => ?_
    obtain ⟨⟨_, hvalid⟩, hone⟩ := hfields (read_nil vocabulary) fun _ hfield =>
      (List.not_mem_nil hfield).elim
    exact ⟨hvalid.row, hone⟩
  refine .bind hall fun fields => ?_
  by_cases hfields : Field.Row vocabulary.types vocabulary.version fields ∧
      ∀ field ∈ fields, one field
  · refine ((yields_linkRow vocabulary fields).and (h.link fields hfields.1 hfields.2)).mono ?_
    exact fun _ hlinked _ => ⟨hlinked.1 hfields.1, hlinked.2⟩
  · exact (yields_linkRow vocabulary fields).mono fun _ _ hread => absurd hread hfields

mutual

/-- By recursion on the element: a group is read from its children. -/
theorem yields_readField (h : ReadAs vocabulary one row)
    (htypes : TypeReader.Types vocabulary.types) :
    ∀ element : Element, Yields (readField vocabulary element) fun result => ∀ field ∈ result,
      field.Valid vocabulary.types vocabulary.version ∧ tag field = element.name ∧ one field
  | ⟨name, attributes, text, children⟩ => by
    have hfields := h.yields_linked (yields_readFields h htypes children {} [])
    unfold readField
    dsimp only
    split
    · next hname =>
      refine (yields_readPlain htypes _).mono ?_
      rintro _ ⟨info, type, rfl, hbare, hvalid⟩ _ ⟨⟩
      exact ⟨hvalid, hname.symm, h.plain info type hbare⟩
    · split
      · next hname =>
        refine (yields_readData htypes _).mono ?_
        rintro _ ⟨info, type, rfl, hbare, hvalid⟩ _ ⟨⟩
        exact ⟨hvalid, hname.symm, h.data info type hbare⟩
      · split
        · next hname =>
          refine .bind (Element.yields_required _ "name") fun fieldName => ?_
          refine .bind (Element.yields_word _ "id" invalidId) fun id => ?_
          refine .bind (Element.yields_word _ "blockLength" 0) fun blockLength => ?_
          split
          · next info members htype =>
            refine .bind (yields_dimension _ members) fun _ => ?_
            rw [← bind_assoc]
            refine .bind hfields fun linked => ?_
            refine .bind (yields_fieldInfo vocabulary _ fieldName id .required)
              fun fieldInfo => .pure ?_
            rintro ⟨hinfo, hbare⟩ ⟨⟨hvalid, hsiblings⟩, hrow⟩ ⟨hlength, hcount⟩ - - - _ ⟨⟩
            exact ⟨.group hinfo (htypes.of_get? htype).1 hlength hcount hvalid hsiblings,
              hname.symm, h.group fieldInfo _ blockLength linked hbare hrow⟩
          · exact .bind (.error _) fun _ => .pure fun h => h.elim
        · exact .pure fun field hfield => (Option.not_mem_none field hfield).elim

theorem yields_readFields (h : ReadAs vocabulary one row)
    (htypes : TypeReader.Types vocabulary.types) :
    ∀ (elements : List Element) (before : Before) (fields : List Field),
      Yields (readFields vocabulary before fields elements) fun result =>
        Read vocabulary before fields → (∀ field ∈ fields, one field) →
        (∃ last, Read vocabulary last result) ∧ ∀ field ∈ result, one field
  | [], before, fields => .pure fun hread hone => ⟨⟨before, hread⟩, hone⟩
  | element :: rest, before, fields => by
    have hrest := yields_readFields h htypes rest (before.after element)
    unfold readFields
    refine .bind (yields_checkOrder before element) fun _ => ?_
    refine .bind (yields_readField h htypes element) fun result => ?_
    split
    · next field =>
      refine .bind (yields_addField fields field) fun added => (hrest added).mono ?_
      rintro result hresult ⟨rfl, hname, hid⟩ hfield horder hread hfields
      obtain ⟨hvalid, htag, hone⟩ := hfield field rfl
      refine hresult (hread.append hvalid htag.symm horder hname hid) ?_
      simpa only [List.mem_append, List.mem_singleton, or_imp, forall_and, forall_eq] using
        And.intro hfields hone
    · rw [pure_bind]
      exact (hrest fields).mono fun _ hresult _ _ hread => hresult (hread.skip element)

end

theorem yields_readMessage (h : ReadAs vocabulary one row)
    (htypes : TypeReader.Types vocabulary.types) (element : Element) :
    Yields (readMessage vocabulary element) fun message =>
      message.Valid vocabulary.types vocabulary.version ∧ row message.fields := by
  have hfields := h.yields_linked (h.yields_readFields htypes element.children {} [])
  unfold readMessage
  refine .bind (element.yields_requiredWord "id") fun id => ?_
  refine .bind (element.yields_required "name") fun name => ?_
  refine .bind (Check.yields_name name) fun _ => ?_
  rw [← bind_assoc]
  refine .bind hfields fun linked => ?_
  refine .bind (element.yields_word "blockLength" 0) fun blockLength => ?_
  refine .bind (element.yields_word "sinceVersion" 0) fun sinceVersion => ?_
  refine .bind (element.yields_word "deprecated" 0) fun deprecated => .pure ?_
  intro _ _ _ hlinked hname _ _
  refine ⟨?_, hlinked.2⟩
  exact {
    name := hname
    description := element.attribute?_ne_empty _
    semanticType := element.attribute?_ne_empty _
    row := hlinked.1 }

end ReadAs

theorem readAs_any (vocabulary : Vocabulary) :
    ReadAs vocabulary (fun _ => True) fun _ => True where
  plain _ _ _ := trivial
  data _ _ _ := trivial
  group _ _ _ _ _ _ := trivial
  link fields _ _ := (yields_linkRow vocabulary fields).mono fun _ _ => trivial

end SimpleBinary.MessageReader
