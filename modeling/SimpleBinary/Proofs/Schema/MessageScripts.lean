import SimpleBinary.Proofs.Schema.Layout
import SimpleBinary.Proofs.Schema.Script
import SimpleBinary.Schema.MessageReader

/-! The scripts of the readers of messages, and of the layout of what they read. -/
namespace SimpleBinary

namespace MessageReader
open Check (Scripted)
open Xml (Element)

section
variable (vocabulary : Vocabulary) (element : Element)

theorem scripted_fieldInfo (name : String) (id : Int32) (presence : Presence) :
    Scripted (fieldInfo vocabulary element name id presence) := by
  unfold fieldInfo
  refine .bind (Check.scripted_name name) fun _ => ?_
  refine .bind (element.scripted_word "offset" 0) fun _ => ?_
  refine .bind element.scripted_presence? fun _ => ?_
  refine .bind (element.scripted_word "sinceVersion" 0) fun _ => ?_
  refine .bind (element.scripted_word "deprecated" 0) fun _ => ?_
  refine .bind (element.scripted_word "refId" invalidId) fun _ => ?_
  exact .guard (.error _) (.pure _)

theorem scripted_checkConstant (enumName reference : String) (enum : EnumType) (type : DataType) :
    Scripted (checkConstant enumName reference enum type) := by
  unfold checkConstant
  split
  · exact .ite (.error _) (.pure _)
  · exact .ite (.pure _) (.error _)
  · exact .error _

theorem scripted_checkValueRef (info : FieldInfo) (type : DataType) (reference : String) :
    Scripted (checkValueRef vocabulary info type reference) := by
  unfold checkValueRef
  split
  · exact .error _
  · split
    · exact .error _
    · exact .guard (.error _) (.ite (scripted_checkConstant _ _ _ _) (.pure _))

theorem scripted_checkField (info : FieldInfo) (type : DataType) :
    Scripted (checkField vocabulary info type) := by
  unfold checkField
  cases info.valueRef with
  | none =>
    dsimp only
    split
    · exact .guard (.error _) (.guard (.error _) (.pure _))
    · exact .guard (.error _) (.pure _)
  | some reference =>
    have hreference := scripted_checkValueRef vocabulary info type reference
    dsimp only
    split
    · exact .guard (.error _) (.guard (.error _) hreference)
    · exact .guard (.error _) hreference

theorem scripted_readPlain : Scripted (readPlain vocabulary element) := by
  unfold readPlain
  refine .bind (element.scripted_required "name") fun name => ?_
  refine .bind (element.scripted_requiredWord "id") fun id => ?_
  refine .bind (element.scripted_required "type") fun typeName => ?_
  split
  · exact .bind (.error _) fun _ => .pure _
  · refine .bind (scripted_fieldInfo vocabulary element name id _) fun info => ?_
    exact .bind (scripted_checkField vocabulary info _) fun _ => .pure _

end

theorem scripted_dimension (composite : String) (members : List DataType) :
    Scripted (Check.dimension composite members) := by
  unfold Check.dimension
  cases DataType.encodedMember? members "numInGroup" with
  | none =>
    dsimp only
    split
    · exact .bind (.error _) fun _ => .error _
    · exact .guard (.error _) (.error _)
  | some count =>
    have hcount : Scripted (if !count.primitive.isUnsigned then
        Check.error (.memberUnsigned "numInGroup" composite)
        else if !Check.isNarrow count.primitive then
          Check.warning (.memberShouldBeNarrow "numInGroup" composite)
        else pure ()) :=
      .ite (.error _) (.ite (.warning _) (.pure _))
    dsimp only
    split
    · exact .bind (.error _) fun _ => hcount
    · exact .guard (.error _) hcount

theorem scripted_varData (composite : String) (members : List DataType) :
    Scripted (Check.varData composite members) := by
  have hdata : Scripted (if (DataType.encodedMember? members "varData").isNone then
      Check.error (.varDataWithout "varData" composite) else pure ()) :=
    .ite (.error _) (.pure _)
  unfold Check.varData
  dsimp only
  split
  · exact .bind (.error _) fun _ => hdata
  · exact .ite (.bind (.error _) fun _ => hdata) (.guard (.warning _) hdata)

section
variable (vocabulary : Vocabulary) (element : Element)

theorem scripted_readData : Scripted (readData vocabulary element) := by
  unfold readData
  refine .bind (element.scripted_required "name") fun name => ?_
  refine .bind (element.scripted_requiredWord "id") fun id => ?_
  refine .bind (element.scripted_required "type") fun typeName => ?_
  split
  · refine .bind (scripted_varData _ _) fun _ => ?_
    exact .bind (scripted_fieldInfo vocabulary element name id _) fun _ => .pure _
  · exact .bind (.error _) fun _ => .pure _

theorem scripted_checkOrder (before : Before) : Scripted (checkOrder before element) :=
  .ite (.error _) (.ite (.error _) (.pure _))

theorem scripted_addField (fields : List Field) (field : Field) :
    Scripted (addField fields field) :=
  .guard (.error _) (.guard (.error _) (.pure _))

theorem scripted_linkGroup (fields : List Field) (index : Nat) (info : FieldInfo) :
    Scripted (linkGroup fields index info) := by
  unfold linkGroup
  split
  · exact .pure _
  · split
    · exact .pure _
    · exact .bind (.warning _) fun _ => .pure _

theorem scripted_linkData (fields : List Field) (index : Nat) (info : FieldInfo) :
    Scripted (linkData fields index info) := by
  unfold linkData
  refine .ite (.pure _) ?_
  split
  · exact .pure _
  · exact .bind (.warning _) fun _ => .pure _

theorem scripted_linkFields (fields : List Field) : Scripted (linkFields fields) := by
  refine .foldlM (fun linked index => ?_) _ _
  split
  · exact .pure _
  · exact .bind (scripted_linkGroup _ _ _) fun _ => scripted_linkData _ _ _

mutual

/-- By recursion on the element: a group is read from its children. -/
theorem scripted_readField : ∀ element : Element, Scripted (readField vocabulary element)
  | ⟨name, attributes, text, children⟩ => by
    have hfields := scripted_readFields children {} []
    unfold readField
    dsimp only
    refine .ite (scripted_readPlain vocabulary _) ?_
    refine .ite (scripted_readData vocabulary _) ?_
    refine .ite ?_ (.pure _)
    refine .bind (Element.scripted_required _ "name") fun name => ?_
    refine .bind (Element.scripted_word _ "id" invalidId) fun id => ?_
    refine .bind (Element.scripted_word _ "blockLength" 0) fun blockLength => ?_
    split
    · refine .bind (scripted_dimension _ _) fun _ => ?_
      refine .bind hfields fun fields => ?_
      refine .bind (scripted_linkFields fields) fun _ => ?_
      exact .bind (scripted_fieldInfo vocabulary _ name id _) fun _ => .pure _
    · exact .bind (.error _) fun _ => .pure _

theorem scripted_readFields : ∀ (elements : List Element) (before : Before) (fields : List Field),
    Scripted (readFields vocabulary before fields elements)
  | [], _, _ => .pure _
  | element :: rest, before, fields => by
    have hrest := scripted_readFields rest (before.after element)
    unfold readFields
    refine .bind (scripted_checkOrder element before) fun _ => ?_
    refine .bind (scripted_readField element) fun field => ?_
    split
    · exact .bind (scripted_addField fields _) hrest
    · rw [pure_bind]
      exact hrest fields

end

theorem scripted_readMessage : Scripted (readMessage vocabulary element) := by
  unfold readMessage
  refine .bind (element.scripted_requiredWord "id") fun id => ?_
  refine .bind (element.scripted_required "name") fun name => ?_
  refine .bind (Check.scripted_name name) fun _ => ?_
  refine .bind (scripted_readFields vocabulary element.children {} []) fun fields => ?_
  refine .bind (scripted_linkFields fields) fun linked => ?_
  refine .bind (element.scripted_word "blockLength" 0) fun _ => ?_
  refine .bind (element.scripted_word "sinceVersion" 0) fun _ => ?_
  refine .bind (element.scripted_word "deprecated" 0) fun _ => ?_
  exact .pure _

end
end MessageReader

namespace Field
open Check (Scripted)
variable {α β γ δ : Type}

/-- A layout as a check: a layout that fails keeps the fields it has placed,
but nobody looks at them. -/
def attempt (action : StateM Log (α × Except Error β)) : Check (α × β) :=
  ExceptT.mk ((fun pair => pair.2.map (pair.1, ·)) <$> action)

theorem scripted_outcome (value : α) (outcome : Except Error β)
    (h : outcome ≠ .error .endlessReferences := by simp) :
    Scripted (attempt (pure (value, outcome))) := by
  cases outcome with
  | ok result => exact .pure (value, result)
  | error error => exact .throw error fun herror => h (congrArg Except.error herror)

theorem placeValue_ends (layout : Layout) (field : Field) (type : DataType) :
    (placeValue layout field type).2 ≠ .error .endlessReferences := by
  unfold placeValue
  split
  · nofun
  · dsimp only [Layout.after]
    repeat' split
    all_goals nofun

/-- A check in the middle of an action that gives up where the check does. -/
theorem scripted_run_bind {check : Check γ}
    {next : Except Error γ → StateM Log (Except Error α)} (h : Scripted check)
    (hfail : ∀ error, next (.error error) = pure (.error error))
    (hnext : ∀ value, Scripted (ExceptT.mk (next (.ok value)))) :
    Scripted (ExceptT.mk (check.run >>= next)) := by
  have hcont : next = ExceptT.bindCont fun value => ExceptT.mk (next (.ok value)) := by
    funext outcome
    cases outcome with
    | ok value => rfl
    | error error => exact hfail error
  rw [hcont]
  exact .bind h hnext

theorem scripted_after_check {check : Check γ}
    {next : Except Error γ → StateM Log (α × Except Error β)} (h : Scripted check)
    (hfail : ∀ error, ∃ value, next (.error error) = pure (value, .error error))
    (hnext : ∀ value, Scripted (attempt (next (.ok value)))) :
    Scripted (attempt (check.run >>= next)) := by
  rw [attempt, map_bind]
  refine scripted_run_bind h (fun error => ?_) hnext
  obtain ⟨value, hvalue⟩ := hfail error
  rw [hvalue]
  rfl

theorem scripted_after_layout {action : StateM Log (γ × Except Error δ)}
    {next : γ × Except Error δ → StateM Log (α × Except Error β)}
    (h : Scripted (attempt action))
    (hfail : ∀ placed error, ∃ value, next (placed, .error error) = pure (value, .error error))
    (hnext : ∀ placed value, Scripted (attempt (next (placed, .ok value)))) :
    Scripted (attempt (action >>= next)) := by
  have hbind : attempt (action >>= next) =
      attempt action >>= fun pair => attempt (next (pair.1, .ok pair.2)) := by
    rw [attempt, map_bind]
    change _ = ExceptT.mk (action >>= fun pair => ExceptT.bindCont
      (fun pair => attempt (next (pair.1, .ok pair.2))) (pair.2.map (pair.1, ·)))
    refine congrArg (fun rest => ExceptT.mk (action >>= rest)) (funext fun pair => ?_)
    obtain ⟨placed, outcome⟩ := pair
    cases outcome with
    | ok value => rfl
    | error error =>
      obtain ⟨value, hvalue⟩ := hfail placed error
      rw [hvalue]
      rfl
  rw [hbind]
  exact .bind h fun pair => hnext pair.1 pair.2

theorem scripted_arrive (hint : Int) (layout : Layout) (field : Field) :
    Scripted (ExceptT.mk (arrive hint layout field)) := by
  unfold arrive
  dsimp only
  split
  · exact scripted_run_bind (.error _) (fun _ => rfl) fun _ => .pure _
  · exact .pure _

mutual

theorem scripted_place (hint : Int) : ∀ (field : Field) (layout : Layout),
    Scripted (attempt (place hint layout field))
  | .plain info type, layout => by
    unfold place
    apply scripted_after_check (scripted_arrive hint layout _) fun _ => ⟨_, rfl⟩
    rintro ⟨field, arrived⟩
    exact scripted_outcome _ _ (placeValue_ends arrived field type)
  | .data info type, layout => by
    unfold place
    apply scripted_after_check (scripted_arrive hint layout _) fun _ => ⟨_, rfl⟩
    rintro ⟨field, arrived⟩
    exact scripted_outcome _ _ (placeValue_ends arrived field type)
  | .group info dimension blockLength fields, layout => by
    unfold place
    apply scripted_after_check (scripted_arrive hint layout _) fun _ => ⟨_, rfl⟩
    rintro ⟨field, arrived⟩
    refine scripted_after_layout (scripted_placeAll 0 fields {}) (fun _ _ => ⟨_, rfl⟩) ?_
    intro inner last
    refine scripted_after_check ?_ (fun _ => ⟨_, rfl⟩) fun _ => scripted_outcome _ _
    exact .ite (.error _) (.pure _)

theorem scripted_placeAll (hint : Int) : ∀ (fields : List Field) (layout : Layout),
    Scripted (attempt (placeAll hint layout fields))
  | [], layout => by
    unfold placeAll
    exact scripted_outcome _ _
  | field :: rest, layout => by
    unfold placeAll
    refine scripted_after_layout (scripted_place hint field layout) (fun _ _ => ⟨_, rfl⟩) ?_
    intro placed next
    refine scripted_after_layout (scripted_placeAll hint rest next) (fun _ _ => ⟨_, rfl⟩) ?_
    exact fun _ _ => scripted_outcome _ _

end
end Field
end SimpleBinary
