import SimpleBinary.Proofs.Schema.Script
import SimpleBinary.Schema.TypeReader

/-! The scripts of the readers of types. What a reading remembers of the names
that it came through is no part of a policy either. -/
namespace SimpleBinary

namespace TypeReader
open Check (Scripted)
open Xml (Element)

section
variable (known : Known) (element : Element) (name : String)

theorem scripted_typeInfo (presence : Presence) : Scripted (typeInfo element name presence) := by
  unfold typeInfo
  refine .bind (Check.scripted_name name) fun _ => ?_
  refine .bind (element.scripted_word? "offset") fun _ => ?_
  refine .bind (element.scripted_word "sinceVersion" 0) fun _ => ?_
  refine .bind (element.scripted_word "deprecated" 0) fun _ => ?_
  exact .pure _

theorem scripted_report (context : String) (read : Except LiteralError Value) :
    Scripted (report context read) := by
  cases read with
  | ok value => exact .pure _
  | error error => exact .bind (.error _) fun _ => .pure _

theorem scripted_literal (text : String) (primitive : Primitive) (context : String) :
    Scripted (literal text primitive context) :=
  scripted_report context _

theorem scripted_literalAttribute (key : String) (primitive : Primitive) (context : String) :
    Scripted (literalAttribute element key primitive context) := by
  unfold literalAttribute
  split
  · exact scripted_literal _ primitive context
  · exact .pure _

theorem scripted_referredText (reference : String) : Scripted (referredText known reference) := by
  unfold referredText
  split
  · exact .bind (.error _) fun _ => .pure _
  · split
    · exact .bind (.error _) fun _ => .pure _
    · dsimp only
      split
      · exact .bind (.error _) fun _ => .pure _
      · exact .pure _

theorem scripted_constant (type : EncodedType) :
    Scripted (constant known element name type) := by
  have hvalue : ∀ text, Scripted (if type.primitive = .char ∧ 1 < type.length.toInt then
      report name (Value.ofArrayLiteral text type.length.toInt.toNat
        (type.characterEncoding.getD Value.defaultCharacterEncoding))
      else literal text type.primitive name) := fun text =>
    .ite (scripted_report _ _) (scripted_literal _ _ _)
  unfold constant
  dsimp only
  split
  · refine .bind (scripted_referredText known _) fun text => ?_
    split
    · exact .bind (.error _) fun _ => .pure _
    · exact hvalue _
  · rw [pure_bind]
    split
    · exact .bind (.error _) fun _ => .pure _
    · exact hvalue _

theorem scripted_limits (presence : Presence) (primitive : Primitive)
    (build : Option Value → Option Value → Option Value → TypeInfo → DataType) :
    Scripted (do
      let minValue ← literalAttribute element "minValue" primitive name
      let maxValue ← literalAttribute element "maxValue" primitive name
      let nullValue ← literalAttribute element "nullValue" primitive name
      if nullValue.isSome ∧ presence ≠ .optional then Check.warning (.nullNotOptional name)
      let info ← typeInfo element name presence
      return some (build minValue maxValue nullValue info)) := by
  refine .bind (scripted_literalAttribute element "minValue" primitive name) fun _ => ?_
  refine .bind (scripted_literalAttribute element "maxValue" primitive name) fun _ => ?_
  refine .bind (scripted_literalAttribute element "nullValue" primitive name) fun _ => ?_
  refine .guard (.warning _) ?_
  exact .bind (scripted_typeInfo element name presence) fun _ => .pure _

theorem scripted_readEncoded : Scripted (readEncoded known element) := by
  unfold readEncoded
  refine .bind (element.scripted_required "name") fun name => ?_
  refine .bind element.scripted_presence? fun presence => ?_
  refine .bind (element.scripted_required "primitiveType") fun primitiveName => ?_
  split
  · exact .bind (.error _) fun _ => .pure _
  · next primitive _ =>
    refine .bind (element.scripted_word "length" 1) fun length => ?_
    refine .ite (.bind (.error _) fun _ => .pure _) ?_
    refine .ite (.bind (.error _) fun _ => .pure _) ?_
    refine .bind (element.scripted_flag "variableLength" false) fun isVariable => ?_
    dsimp only
    split
    · refine .bind (scripted_constant known element name _) fun _ => ?_
      exact scripted_limits element name _ primitive _
    · rw [pure_bind]
      exact scripted_limits element name _ primitive _

theorem scripted_namedValue (value : Value) : Scripted (namedValue element name value) := by
  unfold namedValue
  refine .bind (element.scripted_word "sinceVersion" 0) fun _ => ?_
  refine .bind (element.scripted_word "deprecated" 0) fun _ => ?_
  exact .pure _

theorem scripted_addValidValue (encoding : Primitive) (values : List NamedValue) :
    Scripted (addValidValue encoding values element) := by
  unfold addValidValue
  refine .bind (element.scripted_required "name") fun name => ?_
  refine .bind (Check.scripted_name name) fun _ => ?_
  refine .bind (scripted_literal _ encoding name) fun value => ?_
  split
  · exact .pure _
  · refine .ite (.bind (.error _) fun _ => .pure _) ?_
    refine .ite (.bind (.error _) fun _ => .pure _) ?_
    exact .bind (scripted_namedValue element name _) fun _ => .pure _

theorem scripted_readEnum : Scripted (readEnum known element) := by
  unfold readEnum
  refine .bind (element.scripted_required "name") fun name => ?_
  refine .bind element.scripted_presence? fun presence => ?_
  refine .bind (element.scripted_required "encodingType") fun encodingName => ?_
  split
  · exact .bind (.error _) fun _ => .pure _
  · next encoding _ =>
    have hvalues : ∀ nullValue : Option Value, Scripted (do
        let values ← (element.childrenNamed "validValue").foldlM (addValidValue encoding) []
        let info ← typeInfo element name (presence.getD .required)
        return some (DataType.enum info { encoding, nullValue, values })) := by
      intro nullValue
      refine .bind (.foldlM (fun values child => ?_) _ _) fun _ => ?_
      · exact scripted_addValidValue child encoding values
      · exact .bind (scripted_typeInfo element name _) fun _ => .pure _
    dsimp only
    split
    · rw [pure_bind]
      exact hvalues none
    · exact .guard (.error _) (.bind (scripted_literal _ encoding name) hvalues)

theorem scripted_addChoice (encoding : Primitive) (choices : List NamedValue) :
    Scripted (addChoice encoding choices element) := by
  unfold addChoice
  refine .bind (element.scripted_required "name") fun name => ?_
  refine .bind (Check.scripted_name name) fun _ => ?_
  refine .bind (scripted_literal _ encoding name) fun value => ?_
  split
  · exact .pure _
  · refine .ite (.bind (.error _) fun _ => .pure _) ?_
    refine .ite (.bind (.warning _) fun _ => .pure _) ?_
    refine .ite (.bind (.warning _) fun _ => .pure _) ?_
    exact .bind (scripted_namedValue element name _) fun _ => .pure _

theorem scripted_readSet : Scripted (readSet known element) := by
  unfold readSet
  refine .bind (element.scripted_required "name") fun name => ?_
  refine .bind element.scripted_presence? fun presence => ?_
  refine .bind (element.scripted_required "encodingType") fun encodingName => ?_
  split
  · exact .bind (.error _) fun _ => .pure _
  · next encoding _ =>
    refine .bind (.foldlM (fun choices child => ?_) _ _) fun _ => ?_
    · exact scripted_addChoice child encoding choices
    · exact .bind (scripted_typeInfo element name _) fun _ => .pure _

theorem scripted_memberOffsets (composite : String) (members : List DataType) (offset : Int) :
    Scripted (memberOffsets composite offset members) := by
  induction members generalizing offset with
  | nil => exact .pure _
  | cons member rest ih =>
    have hrest : ∀ start : Int, Scripted (do
        if member.isVariable then return
        let next := start + member.encodedLength
        if Check.fits next then memberOffsets composite next rest else throw .tooLarge) :=
      fun start => .ite (.pure _) (.ite (ih _) (.throw _))
    unfold memberOffsets
    dsimp only
    split
    · rw [pure_bind]
      exact hrest offset
    · split
      · refine .bind (.error _) fun _ => ?_
        rw [pure_bind]
        exact hrest _
      · rw [pure_bind]
        exact hrest _

end

/-- A reading that follows a script, whichever composites are open. -/
def Follows {α : Type} (reading : Reading α) (endless : Bool := false) : Prop :=
  ∀ names, Scripted (reading.run names) endless

namespace Follows
variable {α β : Type} {endless : Bool}

theorem bind {reading : Reading α} {next : α → Reading β} (h : Follows reading endless)
    (hnext : ∀ value, Follows (next value) endless) : Follows (reading >>= next) endless := by
  intro names
  rw [StateT.run_bind]
  exact .bind (h names) fun result => hnext result.1 result.2

theorem pure (value : α) : Follows (Pure.pure value) endless := fun _ => .pure _

theorem lift {check : Check α} (h : Scripted check) : Follows (liftM check) endless :=
  fun _ => .bind h.weaken fun _ => .pure _

theorem get : Follows (MonadState.get : Reading (List String)) endless := fun _ => .pure _

theorem modified (change : List String → List String) :
    Follows (modify change : Reading PUnit) endless :=
  fun _ => .pure _

theorem ite {c : Prop} [Decidable c] {first second : Reading α} (hfirst : Follows first endless)
    (hsecond : Follows second endless) : Follows (if c then first else second) endless := by
  split
  · exact hfirst
  · exact hsecond

theorem foldlM {step : β → α → Reading β} (hstep : ∀ acc item, Follows (step acc item) endless)
    (items : List α) (init : β) : Follows (items.foldlM step init) endless := by
  induction items generalizing init with
  | nil => exact pure init
  | cons item rest ih =>
    rw [List.foldlM_cons]
    exact bind (hstep init item) ih

theorem error (finding : Finding) (value : α) :
    Follows (do
      Check.error finding
      return value) endless :=
  bind (lift (.error finding)) fun _ => pure value

end Follows

theorem follows_copy {endless : Bool} (element : Element) (name : String) (type : DataType) :
    Follows (do
      Check.name name
      let offset ← element.word? "offset"
      let sinceVersion ← element.word "sinceVersion" type.info.sinceVersion
      return some (type.withInfo { type.info with name, offset, sinceVersion }) :
        Reading (Option DataType)) endless := by
  refine .bind (.lift (Check.scripted_name name)) fun _ => ?_
  refine .bind (.lift (element.scripted_word? "offset")) fun _ => ?_
  refine .bind (.lift (element.scripted_word "sinceVersion" type.info.sinceVersion)) fun _ => ?_
  exact .pure _

section
variable {known : Known} {read : Element → Reading (Option DataType)} {endless : Bool}
  (hread : ∀ element, Follows (read element) endless)
include hread

theorem follows_readRef (element : Element) : Follows (readRef known read element) endless := by
  unfold readRef
  refine .bind (.lift (element.scripted_required "name")) fun name => ?_
  refine .bind (.lift (element.scripted_required "type")) fun typeName => ?_
  refine .bind .get fun names => ?_
  refine .ite (.error _ _) ?_
  dsimp only
  split
  · rw [pure_bind]
    exact follows_copy element name _
  · split
    · refine .bind (hread _) fun referred => ?_
      split
      · exact .error _ _
      · exact follows_copy element name _
    · rw [pure_bind]
      exact .error _ _

theorem follows_addMember (composite : String) (members : List DataType) (element : Element) :
    Follows (addMember known read composite members element) endless := by
  unfold addMember
  dsimp only
  refine .ite (.bind (follows_readRef hread element) ?tail) (.bind (hread element) ?tail)
  intro member
  cases member with
  | none => exact .pure _
  | some member => exact .ite (.error _ _) (.pure _)

theorem follows_readComposite (element : Element) :
    Follows (readComposite known read element) endless := by
  unfold readComposite
  refine .bind (.lift (element.scripted_required "name")) fun name => ?_
  refine .bind (.lift element.scripted_presence?) fun presence => ?_
  refine .bind (.modified _) fun _ => ?_
  refine .bind (.foldlM (follows_addMember hread name) _ _) fun members => ?_
  refine .bind (.modified _) fun _ => ?_
  refine .bind (.lift (scripted_memberOffsets name members 0)) fun _ => ?_
  refine .bind (.lift (scripted_typeInfo element name _)) fun _ => ?_
  exact .pure _

end

theorem follows_readType (known : Known) (fuel : Nat) (element : Element) :
    Follows (readType known fuel element) true := by
  induction fuel generalizing element with
  | zero => exact fun _ => .without_end
  | succ fuel ih =>
    unfold readType
    split
    · exact .lift (scripted_readEncoded known element)
    · exact follows_readComposite ih element
    · exact .lift (scripted_readEnum known element)
    · exact .lift (scripted_readSet known element)
    · exact .pure _

theorem scripted_readAll (root : Element) : Scripted (readAll root) true := by
  refine .foldlM (fun types element => ?_) _ _
  refine .bind (.map _ (follows_readType _ _ element [])) fun type => ?_
  split
  · exact .guard (.warning _) (.pure _)
  · exact .pure _

end TypeReader
end SimpleBinary
