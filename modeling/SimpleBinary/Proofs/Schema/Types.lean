import SimpleBinary.Proofs.Schema.Valid
import SimpleBinary.Proofs.Schema.Yields
import SimpleBinary.Proofs.Table
import SimpleBinary.Schema.TypeReader

/-! The types of an accepted schema. Whatever the reading of a declaration
gives in front of a clean log is valid at every depth. -/
namespace SimpleBinary

namespace TypeReader
open Check (Yields)
open Xml (Element)

theorem yields_typeInfo (element : Element) (name : String) (presence : Presence) :
    Yields (typeInfo element name presence) fun info =>
      info.Valid ∧ info.name = name ∧ info.presence = presence := by
  unfold typeInfo
  refine .bind (Check.yields_name name) fun _ => ?_
  refine .bind (element.yields_word? "offset") fun offset => ?_
  refine .bind (element.yields_word "sinceVersion" 0) fun sinceVersion => ?_
  refine .bind (element.yields_word "deprecated" 0) fun deprecated => .pure ?_
  intro _ _ _ hname
  exact ⟨⟨hname, element.attribute?_ne_empty _, element.attribute?_ne_empty _⟩, rfl, rfl⟩

theorem yields_report (context : String) (read : Except LiteralError Value) :
    Yields (report context read) fun value => ∃ v, value = some v ∧ read = .ok v := by
  cases read with
  | ok value => exact .pure ⟨value, rfl, rfl⟩
  | error error => exact .bind (.error _) fun _ => .pure fun h => h.elim

theorem yields_literal (text : String) (primitive : Primitive) (context : String) :
    Yields (literal text primitive context) fun value =>
      ∃ v, value = some v ∧ Value.ofLiteral text primitive = .ok v :=
  yields_report context _

theorem yields_literalAttribute (element : Element) (key : String) (primitive : Primitive)
    (context : String) :
    Yields (literalAttribute element key primitive context) fun value =>
      ∀ v ∈ value, Value.OfPrimitive primitive v := by
  unfold literalAttribute
  split
  · refine (yields_literal _ primitive context).mono ?_
    rintro _ ⟨v, rfl, hv⟩ _ ⟨⟩
    exact Value.ofPrimitive_of_literal hv
  · exact .pure nofun

/-- The text of a value of a declared enum, by the reference `Enum.Value`. -/
def NamesText (declared : Table String Element) (reference text : String) : Prop :=
  ∃ enumName valueName element, Text.dottedName? reference = some (enumName, valueName) ∧
    declared.get? enumName = some element ∧ element.name = "enum" ∧
    ∃ value ∈ element.childrenNamed "validValue",
      value.attribute? "name" = some valueName ∧ value.text? = some text

theorem yields_referredText (known : Known) (reference : String) :
    Yields (referredText known reference) fun text =>
      ∃ t, text = some t ∧ NamesText known.declared reference t := by
  unfold referredText
  split
  · exact .bind (.error _) fun _ => .pure fun h => h.elim
  · next enumName valueName hreference =>
    split
    · exact .bind (.error _) fun _ => .pure fun h => h.elim
    · next element helement =>
      obtain ⟨hdeclared, hkind⟩ := Option.filter_eq_some_iff.mp helement
      dsimp only
      split
      · exact .bind (.error _) fun _ => .pure fun h => h.elim
      · next text htext =>
        obtain ⟨value, hvalue, htext⟩ := Option.bind_eq_some_iff.mp htext
        refine .pure ⟨text, rfl, enumName, valueName, element, hreference, hdeclared, ?_, value,
          List.mem_of_find?_eq_some hvalue, ?_, htext⟩
        · exact of_decide_eq_true hkind
        · simpa using List.find?_some hvalue

theorem yields_constantText (name text : String) (type : EncodedType) :
    Yields (if type.primitive = .char ∧ 1 < type.length.toInt then
        report name (Value.ofArrayLiteral text type.length.toInt.toNat
          (type.characterEncoding.getD Value.defaultCharacterEncoding))
      else literal text type.primitive name) fun value =>
      ∃ v, value = some v ∧ type.ofLiteral text = .ok v := by
  unfold EncodedType.ofLiteral
  split
  · exact yields_report name _
  · exact yields_literal text type.primitive name

/-- A constant is read from a text, and where it refers to a value, from the
text of that. -/
theorem yields_constant (known : Known) (element : Element) (name : String) (type : EncodedType) :
    Yields (constant known element name type) fun value =>
      ∃ v text, value = some v ∧ type.ofLiteral text = .ok v ∧
        ∀ reference ∈ type.valueRef, NamesText known.declared reference text := by
  unfold constant
  dsimp only
  split
  · next reference hreference =>
    refine .bind (yields_referredText known reference) fun text => ?_
    split
    · exact .bind (.error _) fun _ => .pure fun h => h.elim
    · next text =>
      refine (yields_constantText name text type).mono ?_
      rintro _ ⟨v, rfl, hv⟩ ⟨_, ⟨⟩, hrefers⟩
      refine ⟨v, text, rfl, hv, ?_⟩
      rw [hreference]
      rintro _ ⟨⟩
      exact hrefers
  · next hnone =>
    rw [pure_bind]
    split
    · exact .bind (.error _) fun _ => .pure fun h => h.elim
    · next text _ =>
      refine (yields_constantText name text type).mono ?_
      rintro _ ⟨v, rfl, hv⟩
      refine ⟨v, text, rfl, hv, ?_⟩
      rw [hnone]
      exact nofun

structure ReadsEncoded (declared : Table String Element) (element : Element) (info : TypeInfo)
    (type : EncodedType) : Prop where
  name : element.attribute? "name" = some info.name
  valid : (DataType.encoded info type).Valid
  refers : info.presence = .constant → ∀ reference ∈ type.valueRef, ∃ text value,
    NamesText declared reference text ∧ type.constValue = some value ∧
      type.ofLiteral text = .ok value

theorem yields_limits (declared : Table String Element) (element : Element) (name : String)
    (presence : Presence) (plain : EncodedType) (constValue : Option Value) :
    Yields (do
      let minValue ← literalAttribute element "minValue" plain.primitive name
      let maxValue ← literalAttribute element "maxValue" plain.primitive name
      let nullValue ← literalAttribute element "nullValue" plain.primitive name
      if nullValue.isSome ∧ presence ≠ .optional then Check.warning (.nullNotOptional name)
      let info ← typeInfo element name presence
      return some (DataType.encoded info
        { plain with constValue, minValue, maxValue, nullValue })) fun result =>
      element.attribute? "name" = some name →
      EncodedType.Valid presence { plain with
        constValue, minValue := none, maxValue := none, nullValue := none } →
      (presence = .constant → ∀ reference ∈ plain.valueRef, ∃ text value,
        NamesText declared reference text ∧ constValue = some value ∧
          plain.ofLiteral text = .ok value) →
      ∃ info type, result = some (.encoded info type) ∧
        ReadsEncoded declared element info type := by
  refine .bind (yields_literalAttribute element "minValue" plain.primitive name) fun minValue => ?_
  refine .bind (yields_literalAttribute element "maxValue" plain.primitive name) fun maxValue => ?_
  refine .bind (yields_literalAttribute element "nullValue" plain.primitive name)
    fun nullValue => ?_
  dsimp only
  refine .warn (.bind (yields_typeInfo element name presence) fun info => .pure ?_)
  rintro ⟨hvalid, rfl, rfl⟩ hnull hmax hmin hname hplain hrefers
  refine ⟨info, _, rfl, hname, .encoded hvalid ?_, hrefers⟩
  exact { hplain with minValue := hmin, maxValue := hmax, nullValue := hnull }

theorem characters_ne_empty (element : Element) (primitive : Primitive) :
    (element.attribute? "characterEncoding" <|>
      (if primitive = .char then some Value.defaultCharacterEncoding else none)) ≠ some "" := by
  cases hattribute : element.attribute? "characterEncoding" with
  | none =>
    change (if primitive = .char then some Value.defaultCharacterEncoding else none) ≠ some ""
    split <;> decide
  | some text =>
    change some text ≠ some ""
    exact hattribute ▸ element.attribute?_ne_empty _

theorem yields_readEncoded (known : Known) (element : Element) :
    Yields (readEncoded known element) fun result => ∃ info type,
      result = some (.encoded info type) ∧ ReadsEncoded known.declared element info type := by
  unfold readEncoded
  refine .bind (element.yields_required "name") fun name => ?_
  refine .bind element.yields_presence? fun presence => ?_
  refine .bind (element.yields_required "primitiveType") fun primitiveName => ?_
  split
  · exact .bind (.error _) fun _ => .pure fun h => h.elim
  · next primitive hprimitive =>
    refine .bind (element.yields_word "length" 1) fun length => ?_
    split
    · exact .bind (.error _) fun _ => .pure fun h => h.elim
    · next hlength =>
      split
      · exact .bind (.error _) fun _ => .pure fun h => h.elim
      · next hfits =>
        refine .bind (element.yields_flag "variableLength" false) fun isVariable => ?_
        let plain : EncodedType :=
          { primitive, length, isVariable
            characterEncoding := element.attribute? "characterEncoding" <|>
              (if primitive = .char then some Value.defaultCharacterEncoding else none)
            valueRef := element.attribute? "valueRef" }
        have hplain : ∀ constValue : Option Value,
            (presence.getD .required = .constant → constValue.isSome = true) →
            (∀ value ∈ constValue, plain.HasConstant value) →
            EncodedType.Valid (presence.getD .required) { plain with constValue } := by
          intro constValue hconstant hvalue
          refine ⟨?_, ?_, ?_, hconstant, hvalue, nofun, nofun, nofun⟩
          · exact Int.not_lt.mp hlength
          · simpa using hfits
          · exact characters_ne_empty element primitive
        dsimp only
        split
        · refine .bind (yields_constant known element name plain) fun constValue => ?_
          refine (yields_limits known.declared element name _ plain constValue).mono ?_
          rintro result hresult ⟨value, text, rfl, hvalue, hrefers⟩ - - - - hname
          refine hresult hname (hplain _ (fun _ => rfl) ?_) fun _ reference hreference => ?_
          · rintro _ ⟨⟩
            exact EncodedType.hasConstant_of_literal hvalue
          · exact ⟨text, value, hrefers reference hreference, rfl, hvalue⟩
        · next hconstant =>
          rw [pure_bind]
          refine (yields_limits known.declared element name _ plain none).mono ?_
          rintro result hresult - - - - hname
          exact hresult hname (hplain none (fun h => absurd h hconstant) nofun)
            fun h => absurd h hconstant

theorem yields_namedValue (element : Element) (name : String) (value : Value) :
    Yields (namedValue element name value) fun named =>
      named.name = name ∧ named.value = value ∧ named.description ≠ some "" := by
  unfold namedValue
  refine .bind (element.yields_word "sinceVersion" 0) fun _ => ?_
  refine .bind (element.yields_word "deprecated" 0) fun _ => .pure fun _ _ => ?_
  exact ⟨rfl, rfl, element.attribute?_ne_empty _⟩

theorem listed_append {encoding : Primitive} {values : List NamedValue} {named : NamedValue}
    (h : NamedValue.Listed encoding values) (hnamed : named.Valid encoding)
    (hname : ¬ values.any (·.name = named.name) = true)
    (hvalue : ¬ values.any (·.value == named.value) = true) :
    NamedValue.Listed encoding (values ++ [named]) := by
  constructor
  · intro other hother
    rcases List.mem_append.mp hother with hother | hother
    · exact h.valid other hother
    · cases List.mem_singleton.mp hother
      exact hnamed
  · refine List.pairwise_append.mpr ⟨h.distinct, List.pairwise_singleton _ _, ?_⟩
    intro a ha b hb
    cases List.mem_singleton.mp hb
    refine ⟨fun heq => hname ?_, Bool.eq_false_iff.mpr fun heq => hvalue ?_⟩
    · exact List.any_eq_true.mpr ⟨a, ha, decide_eq_true heq⟩
    · exact List.any_eq_true.mpr ⟨a, ha, heq⟩

def ReadsValue (encoding : Primitive) (element : Element) (named : NamedValue) : Prop :=
  element.attribute? "name" = some named.name ∧
    Value.ofLiteral (element.text?.getD "") encoding = .ok named.value

theorem yields_addValidValue (encoding : Primitive) (element : Element)
    (values : List NamedValue) :
    Yields (addValidValue encoding values element) fun result =>
      ∃ named, result = values ++ [named] ∧ ReadsValue encoding element named ∧
        (NamedValue.Listed encoding values → NamedValue.Listed encoding result) := by
  unfold addValidValue
  refine .bind (element.yields_required "name") fun name => ?_
  refine .bind (Check.yields_name name) fun _ => ?_
  refine .bind (yields_literal _ encoding name) fun value => ?_
  split
  · refine .pure ?_
    rintro ⟨_, ⟨⟩, _⟩
  · next value =>
    split
    · exact .bind (.error _) fun _ => .pure fun h => h.elim
    · next hname =>
      split
      · exact .bind (.error _) fun _ => .pure fun h => h.elim
      · next hvalue =>
        refine .bind (yields_namedValue element name value) fun named => .pure ?_
        rintro ⟨rfl, rfl, hdescription⟩ ⟨_, ⟨⟩, hliteral⟩ hvalid hattribute
        refine ⟨named, rfl, ⟨hattribute, hliteral⟩, fun hvalues => ?_⟩
        have hnamed : named.Valid encoding :=
          ⟨hvalid, hdescription, Value.ofPrimitive_of_literal hliteral⟩
        exact listed_append hvalues hnamed hname hvalue

theorem yields_validValues (encoding : Primitive) (children : List Element)
    (values : List NamedValue) :
    Yields (children.foldlM (addValidValue encoding) values) fun result =>
      values ⊆ result ∧ (∀ child ∈ children, ∃ named ∈ result, ReadsValue encoding child named) ∧
        (NamedValue.Listed encoding values → NamedValue.Listed encoding result) := by
  induction children generalizing values with
  | nil => exact .pure ⟨fun _ h => h, nofun, id⟩
  | cons child rest ih =>
    rw [List.foldlM_cons]
    refine .bind (yields_addValidValue encoding child values) fun longer => (ih longer).mono ?_
    rintro result ⟨hkept, hread, hlisted⟩ ⟨named, rfl, hnamed, hvalues⟩
    refine ⟨fun value hvalue => hkept (List.mem_append_left _ hvalue), ?_,
      fun h => hlisted (hvalues h)⟩
    intro other hother
    rcases List.mem_cons.mp hother with rfl | hother
    · exact ⟨named, hkept (List.mem_append_right _ (List.mem_singleton_self named)), hnamed⟩
    · exact hread other hother

structure ReadsEnum (element : Element) (info : TypeInfo) (type : EnumType) : Prop where
  name : element.attribute? "name" = some info.name
  valid : (DataType.enum info type).Valid
  values : ∀ child ∈ element.childrenNamed "validValue",
    ∃ named ∈ type.values, ReadsValue type.encoding child named

theorem yields_enumValues (element : Element) (name : String) (presence : Presence)
    (encoding : Primitive) (nullValue : Option Value) :
    Yields (do
      let values ← (element.childrenNamed "validValue").foldlM (addValidValue encoding) []
      let info ← typeInfo element name presence
      return some (DataType.enum info { encoding, nullValue, values })) fun result =>
      element.attribute? "name" = some name → encoding = .char ∨ encoding = .uint8 →
      (∀ value ∈ nullValue, presence = .optional ∧ Value.OfPrimitive encoding value) →
      ∃ info type, result = some (.enum info type) ∧ ReadsEnum element info type := by
  refine .bind (yields_validValues encoding _ []) fun values => ?_
  refine .bind (yields_typeInfo element name presence) fun info => .pure ?_
  rintro ⟨hinfo, rfl, rfl⟩ ⟨-, hread, hlisted⟩ hname hencoding hnull
  exact ⟨info, _, rfl, hname, .enum hinfo ⟨hencoding, hnull, hlisted ⟨nofun, .nil⟩⟩, hread⟩

theorem yields_readEnum (known : Known) (element : Element) :
    Yields (readEnum known element) fun result => ∃ info type,
      result = some (.enum info type) ∧ ReadsEnum element info type := by
  unfold readEnum
  refine .bind (element.yields_required "name") fun name => ?_
  refine .bind element.yields_presence? fun presence => ?_
  refine .bind (element.yields_required "encodingType") fun encodingName => ?_
  split
  · exact .bind (.error _) fun _ => .pure fun h => h.elim
  · next encoding hencoding =>
    have hnarrow : encoding = .char ∨ encoding = .uint8 := by
      simpa using (Option.filter_eq_some_iff.mp hencoding).2
    have hrest := yields_enumValues element name (presence.getD .required) encoding
    dsimp only
    split
    · rw [pure_bind]
      exact (hrest none).mono fun type htype _ _ hname => htype hname hnarrow nofun
    · split
      · refine .bind (.error _) fun _ => .bind (yields_literal _ encoding name) fun value => ?_
        exact (hrest value).mono fun _ _ _ h => h.elim
      · next hoptional =>
        refine .bind (yields_literal _ encoding name) fun value => ?_
        refine (hrest value).mono ?_
        rintro type htype ⟨v, rfl, hv⟩ - - hname
        refine htype hname hnarrow ?_
        rintro _ ⟨⟩
        exact ⟨Decidable.not_not.mp hoptional, Value.ofPrimitive_of_literal hv⟩

theorem isBit_of_position {encoding : Primitive} {choice : NamedValue}
    (h : ¬ ((choice.value.asLong?.map Int64.toInt).getD (-1) < 0 ∨
      8 * (encoding.size : Int) ≤ (choice.value.asLong?.map Int64.toInt).getD (-1))) :
    choice.IsBit encoding := by
  obtain ⟨hlow, hhigh⟩ := not_or.mp h
  cases hvalue : choice.value with
  | long position size =>
    rw [hvalue] at hlow hhigh
    exact ⟨position, size, hvalue, Int.not_lt.mp hlow, Int.not_le.mp hhigh⟩
  | double d size =>
    rw [hvalue] at hlow
    exact absurd (show (-1 : Int) < 0 by decide) hlow
  | bytes content characterEncoding =>
    rw [hvalue] at hlow
    exact absurd (show (-1 : Int) < 0 by decide) hlow

theorem yields_addChoice (encoding : Primitive) (element : Element) (choices : List NamedValue) :
    Yields (addChoice encoding choices element) fun result =>
      (NamedValue.Listed encoding choices ∧ ∀ choice ∈ choices, choice.IsBit encoding) →
      NamedValue.Listed encoding result ∧ ∀ choice ∈ result, choice.IsBit encoding := by
  unfold addChoice
  refine .bind (element.yields_required "name") fun name => ?_
  refine .bind (Check.yields_name name) fun _ => ?_
  refine .bind (yields_literal _ encoding name) fun value => ?_
  split
  · exact .pure fun _ _ _ h => h
  · next value =>
    dsimp only
    split
    · exact .bind (.error _) fun _ => .pure fun h => h.elim
    · next hposition =>
      split
      · exact .bind (.warning _) fun _ => .pure fun _ _ _ _ h => h
      · next hname =>
        split
        · exact .bind (.warning _) fun _ => .pure fun _ _ _ _ h => h
        · next hvalue =>
          refine .bind (yields_namedValue element name value) fun named => .pure ?_
          rintro ⟨rfl, rfl, hdescription⟩ ⟨_, ⟨⟩, hliteral⟩ hvalid - ⟨hlisted, hbits⟩
          have hnamed : named.Valid encoding :=
            ⟨hvalid, hdescription, Value.ofPrimitive_of_literal hliteral⟩
          refine ⟨listed_append hlisted hnamed hname hvalue, ?_⟩
          intro choice hchoice
          rcases List.mem_append.mp hchoice with hchoice | hchoice
          · exact hbits choice hchoice
          · cases List.mem_singleton.mp hchoice
            exact isBit_of_position hposition

theorem yields_choices (element : Element) (encoding : Primitive) :
    Yields ((element.childrenNamed "choice").foldlM (addChoice encoding) []) fun choices =>
      NamedValue.Listed encoding choices ∧ ∀ choice ∈ choices, choice.IsBit encoding := by
  refine (Yields.foldlM (fun child _ => yields_addChoice encoding child) []).mono ?_
  intro choices h
  exact h ⟨⟨nofun, .nil⟩, nofun⟩

structure ReadsSet (element : Element) (info : TypeInfo) (type : SetType) : Prop where
  name : element.attribute? "name" = some info.name
  valid : (DataType.set info type).Valid

theorem yields_readSet (known : Known) (element : Element) :
    Yields (readSet known element) fun result => ∃ info type,
      result = some (.set info type) ∧ ReadsSet element info type := by
  unfold readSet
  refine .bind (element.yields_required "name") fun name => ?_
  refine .bind element.yields_presence? fun presence => ?_
  refine .bind (element.yields_required "encodingType") fun encodingName => ?_
  split
  · exact .bind (.error _) fun _ => .pure fun h => h.elim
  · next encoding hencoding =>
    refine .bind (yields_choices element encoding) fun choices => ?_
    refine .bind (yields_typeInfo element name _) fun info => .pure ?_
    rintro ⟨hinfo, rfl, -⟩ ⟨hlisted, hbits⟩ - - hname
    have hunsigned := (Option.filter_eq_some_iff.mp hencoding).2
    exact ⟨info, _, rfl, hname, .set hinfo ⟨hunsigned, hlisted, hbits⟩⟩

theorem yields_memberOffsets (composite : String) (offset : Int) (members : List DataType) :
    Yields (memberOffsets composite offset members) fun _ => DataType.Spaced offset members := by
  induction members generalizing offset with
  | nil => exact .pure trivial
  | cons member rest ih =>
    have hrest : ∀ start : Int, Yields (do
        if member.isVariable then return
        let next := start + member.encodedLength
        if Check.fits next then memberOffsets composite next rest else throw .tooLarge) fun _ =>
        member.isVariable = false → Check.fits (start + member.encodedLength) = true ∧
          DataType.Spaced (start + member.encodedLength) rest := by
      intro start
      dsimp only
      split
      · next hvariable => exact .pure fun h => absurd (hvariable.symm.trans h) nofun
      · split
        · next hfits => exact (ih _).mono fun _ h _ => ⟨hfits, h⟩
        · exact .throw _ _
    unfold memberOffsets DataType.Spaced
    dsimp only
    split
    · next hoffset =>
      rw [pure_bind, DataType.start_of_none offset hoffset]
      exact (hrest offset).mono fun _ h => ⟨Int.le_refl _, h⟩
    · next declared hoffset =>
      rw [DataType.start_of_some offset hoffset]
      split
      · refine .bind (.error _) fun _ => ?_
        rw [pure_bind]
        exact (hrest _).mono fun _ _ h => h.elim
      · next hspace =>
        rw [pure_bind]
        exact (hrest _).mono fun _ h => ⟨Int.not_lt.mp hspace, h⟩

/-- A reading that yields a fact whichever composites are open. -/
def Gives {α : Type} (reading : Reading α) (post : α → Prop) : Prop :=
  ∀ names, Yields (reading.run names) fun result => post result.1

namespace Gives
variable {α β : Type}

theorem bind {reading : Reading α} {next : α → Reading β} {mid : α → Prop} {post : β → Prop}
    (h : Gives reading mid)
    (hnext : ∀ value, Gives (next value) fun result => mid value → post result) :
    Gives (reading >>= next) post := by
  intro names
  rw [StateT.run_bind]
  exact .bind (h names) fun result => hnext result.1 result.2

theorem pure {value : α} {post : α → Prop} (h : post value) :
    Gives (Pure.pure value) post :=
  fun _ => .pure h

theorem mono {reading : Reading α} {mid post : α → Prop} (h : Gives reading mid)
    (himp : ∀ value, mid value → post value) : Gives reading post :=
  fun names => (h names).mono fun result => himp result.1

theorem ite {c : Prop} [Decidable c] {first second : Reading α} {post : α → Prop}
    (hfirst : Gives first post) (hsecond : Gives second post) :
    Gives (if c then first else second) post := by
  split
  · exact hfirst
  · exact hsecond

theorem get : Gives (MonadState.get : Reading (List String)) fun _ => True :=
  fun _ => .pure trivial

theorem modified (change : List String → List String) :
    Gives (modify change : Reading PUnit) fun _ => True :=
  fun _ => .pure trivial

theorem lift {check : Check α} {post : α → Prop} (h : Yields check post) :
    Gives (liftM check) post := by
  intro names
  exact .bind h fun value => .pure id

end Gives

def Types (types : Table String DataType) : Prop :=
  ∀ entry ∈ types.entries, entry.2.Valid ∧ entry.1 = entry.2.name

theorem Types.of_get? {types : Table String DataType} {name : String} {type : DataType}
    (h : Types types) (htype : types.get? name = some type) : type.Valid ∧ name = type.name :=
  h (name, type) (Table.mem_of_get? htype)

theorem types_insert {types : Table String DataType} {type : DataType} (h : Types types)
    (htype : type.Valid) : Types (types.insert type.name type) := by
  intro entry hentry
  rcases Table.mem_insertEntry hentry with rfl | hentry
  · exact ⟨htype, rfl⟩
  · exact h entry hentry

theorem gives_error {α : Type} (finding : Finding) (value : α) (post : α → Prop) :
    Gives (do
      Check.error finding
      return value) post :=
  .bind (.lift (.error finding)) fun _ => .pure fun h => h.elim

theorem gives_foldlM {α β : Type} {step : β → α → Reading β} {inv : β → Prop} {items : List α}
    (hstep : ∀ item acc, Gives (step acc item) fun next => inv acc → inv next) (init : β) :
    Gives (items.foldlM step init) fun result => inv init → inv result := by
  induction items generalizing init with
  | nil => exact .pure id
  | cons item rest ih =>
    rw [List.foldlM_cons]
    refine .bind (hstep item init) fun acc => (ih acc).mono ?_
    intro result hresult hacc hinit
    exact hresult (hacc hinit)

def Members (kind : DataType → Prop) (members : List DataType) : Prop :=
  (∀ member ∈ members, kind member) ∧ members.Pairwise fun a b => a.name ≠ b.name

theorem members_append {kind : DataType → Prop} {members : List DataType} {member : DataType}
    (h : Members kind members) (hmember : kind member)
    (hname : ¬ members.any (·.name = member.name) = true) :
    Members kind (members ++ [member]) := by
  constructor
  · intro other hother
    rcases List.mem_append.mp hother with hother | hother
    · exact h.1 other hother
    · cases List.mem_singleton.mp hother
      exact hmember
  · refine List.pairwise_append.mpr ⟨h.2, List.pairwise_singleton _ _, ?_⟩
    intro a ha b hb heq
    cases List.mem_singleton.mp hb
    exact hname (List.any_eq_true.mpr ⟨a, ha, decide_eq_true heq⟩)

/-- What holds of every type that is read: of one that is no composite, of a
composite of such members, and of a copy of such a type. -/
structure ReadAs (declared : Table String Element) (kind : DataType → Prop) : Prop where
  encoded {element : Element} {info : TypeInfo} {type : EncodedType} :
    ReadsEncoded declared element info type → kind (.encoded info type)
  enum {element : Element} {info : TypeInfo} {type : EnumType} :
    ReadsEnum element info type → kind (.enum info type)
  set {element : Element} {info : TypeInfo} {type : SetType} :
    ReadsSet element info type → kind (.set info type)
  composite {info : TypeInfo} {members : List DataType} :
    info.Valid → Members kind members → DataType.Spaced 0 members →
    kind (.composite info members)
  copy {type : DataType} (name : String) (offset : Option Int32) (sinceVersion : Int32) :
    kind type → Text.isName name = true →
    kind (type.withInfo { type.info with name, offset, sinceVersion })

namespace ReadAs
variable {known : Known} {kind : DataType → Prop} {read : Element → Reading (Option DataType)}

theorem gives_copy (h : ReadAs known.declared kind) (element : Element) (name : String)
    (type : DataType) :
    Gives (do
      Check.name name
      let offset ← element.word? "offset"
      let sinceVersion ← element.word "sinceVersion" type.info.sinceVersion
      return some (type.withInfo { type.info with name, offset, sinceVersion }) :
        Reading (Option DataType)) fun result => kind type → ∀ t ∈ result, kind t := by
  refine .bind (.lift (Check.yields_name name)) fun _ => ?_
  refine .bind (.lift (element.yields_word? "offset")) fun offset => ?_
  refine .bind (.lift (element.yields_word "sinceVersion" type.info.sinceVersion))
    fun sinceVersion => .pure ?_
  rintro - - hname hkind _ ⟨⟩
  exact h.copy name offset sinceVersion hkind hname

theorem gives_readRef (h : ReadAs known.declared kind)
    (hread : ∀ element, Gives (read element) fun type =>
      (∀ entry ∈ known.types.entries, kind entry.2) → ∀ t ∈ type, kind t) (element : Element) :
    Gives (readRef known read element) fun type =>
      (∀ entry ∈ known.types.entries, kind entry.2) → ∀ t ∈ type, kind t := by
  unfold readRef
  refine .bind (.lift (element.yields_required "name")) fun name => ?_
  refine .bind (.lift (element.yields_required "type")) fun typeName => ?_
  refine .bind .get fun names => ?_
  dsimp only
  split
  · exact gives_error _ _ _
  · split
    · next type htype =>
      rw [pure_bind]
      refine (h.gives_copy element name type).mono fun result hcopy _ _ _ htypes => hcopy ?_
      exact htypes _ (Table.mem_of_get? htype)
    · split
      · next declaration hdeclaration =>
        refine .bind (hread declaration) fun referred => ?_
        split
        · exact gives_error _ _ _
        · next type =>
          exact (h.gives_copy element name type).mono fun result hcopy hkind _ _ _ htypes =>
            hcopy (hkind htypes type rfl)
      · rw [pure_bind]
        exact gives_error _ _ _

theorem gives_addMember (h : ReadAs known.declared kind)
    (hread : ∀ element, Gives (read element) fun type =>
      (∀ entry ∈ known.types.entries, kind entry.2) → ∀ t ∈ type, kind t)
    (composite : String) (element : Element) (members : List DataType) :
    Gives (addMember known read composite members element) fun result =>
      ((∀ entry ∈ known.types.entries, kind entry.2) → Members kind members) →
      (∀ entry ∈ known.types.entries, kind entry.2) → Members kind result := by
  have hadd : ∀ member : DataType, Gives (if members.any (·.name = member.name) then do
        Check.error (.duplicateMember composite member.name)
        return members
      else return members ++ [member] : Reading (List DataType)) fun result =>
      ((∀ entry ∈ known.types.entries, kind entry.2) → ∀ t ∈ some member, kind t) →
      ((∀ entry ∈ known.types.entries, kind entry.2) → Members kind members) →
      (∀ entry ∈ known.types.entries, kind entry.2) → Members kind result := by
    intro member
    split
    · exact gives_error _ _ _
    · next hname =>
      refine .pure fun hmember hmembers htypes => ?_
      exact members_append (hmembers htypes) (hmember htypes member rfl) hname
  unfold addMember
  dsimp only
  refine .ite (.bind (h.gives_readRef hread element) ?tail) (.bind (hread element) ?tail)
  intro member
  cases member with
  | none => exact .pure fun _ h => h
  | some member => exact hadd member

theorem gives_readComposite (h : ReadAs known.declared kind)
    (hread : ∀ element, Gives (read element) fun type =>
      (∀ entry ∈ known.types.entries, kind entry.2) → ∀ t ∈ type, kind t) (element : Element) :
    Gives (readComposite known read element) fun type => ∀ t ∈ type,
      element.attribute? "name" = some t.name ∧
        ((∀ entry ∈ known.types.entries, kind entry.2) → kind t) := by
  unfold readComposite
  refine .bind (.lift (element.yields_required "name")) fun name => ?_
  refine .bind (.lift element.yields_presence?) fun presence => ?_
  refine .bind (.modified _) fun _ => ?_
  refine .bind (gives_foldlM (h.gives_addMember hread name) []) fun members => ?_
  refine .bind (.modified _) fun _ => ?_
  refine .bind (.lift (yields_memberOffsets name 0 members)) fun _ => ?_
  refine .bind (.lift (yields_typeInfo element name _)) fun info => .pure ?_
  rintro ⟨hinfo, rfl, -⟩ hspaced - hmembers - - hname _ ⟨⟩
  refine ⟨hname, fun htypes => ?_⟩
  exact h.composite hinfo (hmembers (fun _ => ⟨nofun, .nil⟩) htypes) hspaced

/-- By induction on the fuel: what is read inside a composite has less of it. -/
theorem gives_readType (h : ReadAs known.declared kind) (fuel : Nat) (element : Element) :
    Gives (readType known fuel element) fun type => ∀ t ∈ type,
      element.attribute? "name" = some t.name ∧
        ((∀ entry ∈ known.types.entries, kind entry.2) → kind t) := by
  induction fuel generalizing element with
  | zero =>
    -- references without end are an error, which gives no type
    exact fun _ => .throw _ _
  | succ fuel ih =>
    unfold readType
    split
    · refine .lift ((yields_readEncoded known element).mono ?_)
      rintro _ ⟨info, type, rfl, hread⟩ _ ⟨⟩
      exact ⟨hread.name, fun _ => h.encoded hread⟩
    · refine h.gives_readComposite (fun child => (ih child).mono ?_) element
      exact fun type hchild htypes t ht => (hchild t ht).2 htypes
    · refine .lift ((yields_readEnum known element).mono ?_)
      rintro _ ⟨info, type, rfl, hread⟩ _ ⟨⟩
      exact ⟨hread.name, fun _ => h.enum hread⟩
    · refine .lift ((yields_readSet known element).mono ?_)
      rintro _ ⟨info, type, rfl, hread⟩ _ ⟨⟩
      exact ⟨hread.name, fun _ => h.set hread⟩
    · exact .pure nofun

end ReadAs

theorem readAs_valid (declared : Table String Element) : ReadAs declared DataType.Valid where
  encoded h := h.valid
  enum h := h.valid
  set h := h.valid
  composite hinfo hmembers hspaced := .composite hinfo hmembers.1 hmembers.2 hspaced
  copy _ _ _ htype hname :=
    htype.withInfo ⟨hname, htype.info.description, htype.info.semanticType⟩ rfl

theorem yields_addType (types : Table String DataType) (type : DataType) :
    Yields (addType types type) fun result => result = types.insert type.name type := by
  unfold addType
  exact .warn (.pure rfl)

theorem exists_of_builtIn {entry : String × DataType} (h : entry ∈ Schema.builtInTypes.entries) :
    ∃ primitive : Primitive, entry = (primitive.name, .ofPrimitive primitive) := by
  have hentries : Schema.builtInTypes = Table.empty.addAll
      (Primitive.all.map fun primitive => (primitive.name, .ofPrimitive primitive)) := by
    rw [Table.addAll, List.foldl_map]
    rfl
  rw [hentries] at h
  rcases Table.mem_addAll h with hempty | hmem
  · cases hempty
  · obtain ⟨primitive, -, rfl⟩ := List.mem_map.mp hmem
    exact ⟨primitive, rfl⟩

theorem types_builtIn : Types Schema.builtInTypes := by
  intro entry hentry
  obtain ⟨primitive, rfl⟩ := exists_of_builtIn hentry
  exact ⟨DataType.valid_ofPrimitive primitive, rfl⟩

theorem yields_readAll (root : Element) : Yields (readAll root) Types := by
  unfold readAll
  refine (Yields.foldlM (fun element _ types => ?_) Schema.builtInTypes).mono
    fun types h => h types_builtIn
  have htype : ∀ known fuel, Yields ((readType known fuel element).run' []) fun type =>
      Types known.types → ∀ t ∈ type, t.Valid := by
    intro known fuel
    refine .map ((readAs_valid known.declared).gives_readType fuel element []) ?_
    exact fun _ h htypes t ht => (h t ht).2 fun entry hentry => (htypes entry hentry).1
  refine .bind (htype _ _) fun type => ?_
  split
  · next type =>
    refine (yields_addType types type).mono ?_
    rintro _ rfl hvalid htypes
    exact types_insert htypes (hvalid htypes type rfl)
  · exact .pure fun _ h => h

end TypeReader
end SimpleBinary
