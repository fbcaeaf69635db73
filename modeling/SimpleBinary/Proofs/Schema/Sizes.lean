import SimpleBinary.Proofs.Schema.Accepted

/-! The room that plain fields are given. A field has no size as it is read,
and the layout gives one only to what takes up room in its block. -/
namespace SimpleBinary

namespace Field

def isUnsized (field : Field) : Bool := field.info.computedBlockLength = 0

/-- The bytes of a block that belong to a plain field. -/
def room (info : FieldInfo) (type : DataType) : Int :=
  if isConstant (.plain info type) || type.encodedLength = variableLength then 0
  else type.encodedLength

def isSized : Field → Bool
  | .plain info type => info.computedBlockLength = room info type
  | _ => true

theorem everywhere_eq_all (kind : Field → Bool) (fields : List Field) :
    everywhere kind fields = fields.all (throughout kind) := by
  induction fields with
  | nil => rw [everywhere, List.all_nil]
  | cons field rest ih => rw [everywhere, List.all_cons, ih]

theorem everywhere_modify {kind : Field → Bool} {fields : List Field}
    {change : FieldInfo → FieldInfo}
    (hkind : ∀ field, throughout kind (field.mapInfo change) = throughout kind field)
    (h : everywhere kind fields = true) (index : Nat) :
    everywhere kind (fields.modify index (·.mapInfo change)) = true := by
  rw [everywhere_eq_all, List.all_eq_true] at h ⊢
  intro field hfield
  obtain ⟨place, hplace⟩ := List.mem_iff_getElem?.mp hfield
  rw [List.getElem?_modify] at hplace
  obtain ⟨old, hold, rfl⟩ := Option.map_eq_some_iff.mp hplace
  have hunchanged := h old (List.mem_of_getElem? hold)
  split
  · rw [hkind, hunchanged]
  · exact hunchanged

theorem throughout_isUnsized_mapInfo {change : FieldInfo → FieldInfo}
    (hchange : ∀ info, (change info).computedBlockLength = info.computedBlockLength)
    (field : Field) :
    throughout isUnsized (field.mapInfo change) = throughout isUnsized field := by
  have hsame : isUnsized (field.mapInfo change) = isUnsized field := by
    refine decide_eq_decide.mpr ?_
    rw [info_mapInfo, hchange]
  cases field with
  | plain => exact hsame
  | group => exact congrArg (· && _) hsame
  | data => exact hsame

end Field

namespace MessageReader
open Check (Yields)
open Xml (Element)
open SimpleBinary.Field (everywhere throughout isUnsized)

theorem readAs_unsized (vocabulary : Vocabulary) :
    ReadAs vocabulary (throughout isUnsized · = true) (everywhere isUnsized · = true) where
  plain info type h := decide_eq_true (congrArg FieldInfo.computedBlockLength h).symm
  data info type h := decide_eq_true (congrArg FieldInfo.computedBlockLength h).symm
  group info dimension blockLength fields h hrow := by
    rw [throughout, Bool.and_eq_true]
    exact ⟨decide_eq_true (congrArg FieldInfo.computedBlockLength h).symm, hrow⟩
  link fields _ hfields := by
    refine (yields_linkFields (fun fields index change hchange h => ?_) fields).mono
      fun linked hlinked => hlinked ?_
    · refine Field.everywhere_modify (Field.throughout_isUnsized_mapInfo fun info => ?_) h index
      have hsame : (change info).unlinked.computedBlockLength =
          info.unlinked.computedBlockLength := by
        rw [hchange]
      exact hsame
    · rw [Field.everywhere_eq_all, List.all_eq_true]
      exact hfields

end MessageReader

namespace Field

theorem isSized_of_placeValue {info : FieldInfo} {type : DataType} {layout : Layout}
    {placed : Field} {outcome : Except Error Layout} (hinfo : info.computedBlockLength = 0)
    (h : (Field.plain info type).placeValue layout type = (placed, outcome)) :
    throughout isSized placed = true := by
  unfold placeValue at h
  split at h
  · next hconstant =>
    cases h
    simp [throughout, isSized, room, hconstant, hinfo]
  · next hconstant =>
    obtain ⟨rfl, -⟩ := Prod.mk.inj h
    by_cases hsize : type.encodedLength = variableLength
    · simp [mapInfo, throughout, isSized, room, hsize, hinfo]
    · simp only [mapInfo, throughout, isSized, room, hsize, if_false, decide_false, Bool.or_false,
        decide_eq_true_eq]
      rw [if_neg]
      exact hconstant

/-- Each plain field has the room that it takes up, at every depth. -/
theorem Laid.everywhere_isSized {hint : Int} {layout last : Layout} {fields placed : List Field}
    (h : Laid hint layout fields placed last) (hfields : everywhere isUnsized fields = true) :
    everywhere isSized placed = true := by
  induction h with
  | nil => rfl
  | @value hint layout next last field placed type rest placedRest htype hroomy hplaced _ ih =>
    rw [everywhere, Bool.and_eq_true] at hfields ⊢
    refine ⟨?_, ih hfields.2⟩
    cases field with
    | group => cases htype
    | plain info type' =>
      cases htype
      rw [arrivedAt, mapInfo] at hplaced
      refine isSized_of_placeValue ?_ hplaced
      exact of_decide_eq_true hfields.1
    | data info type' =>
      obtain ⟨change, -, rfl⟩ := declared_placeValue hplaced
      rfl
  | group _ _ _ _ ihInner ih =>
    rw [everywhere, throughout, Bool.and_eq_true, Bool.and_eq_true] at hfields
    simp only [everywhere, arrivedAt, mapInfo, throughout, isSized, Bool.true_and,
      Bool.and_eq_true]
    exact ⟨ihInner hfields.1.2, ih hfields.2⟩

end Field

namespace Schema

theorem isSized_of_parse {document : String} {policy : Policy} {schema : Schema}
    {message : Message} (h : parse document policy = .ok schema)
    (hmessage : message ∈ schema.messages.values) :
    Field.everywhere Field.isSized message.fields = true := by
  obtain ⟨declared, hunsized, harranged⟩ :=
    exists_declared_of_parse h (MessageReader.readAs_unsized _) hmessage
  obtain ⟨last, hlaid⟩ := harranged.laid
  exact hlaid.everywhere_isSized hunsized

end Schema
end SimpleBinary
