import SimpleBinary.Proofs.Schema.Levels
import SimpleBinary.Proofs.Schema.References
import SimpleBinary.Proofs.Text.Utf8

/-! Constants by reference. A constant that names a value of an enum is read
anew from the text of that value, as its own type reads it and not as the enum
does. So it has the value that it names as long as both read a character, or
both an integer. -/
namespace SimpleBinary

namespace Text

theorem integer?_of_natural? {chars : List Char} {n : Nat} (h : natural? chars = some n) :
    integer? chars = some (n : Int) := by
  unfold natural? at h
  split at h
  · rw [integer?, h]
    rfl
  · next hplus =>
    unfold integer?
    split
    · -- a minus sign is no digit
      unfold digits? at h
      split at h
      · next hdigits => exact absurd hdigits.2 Bool.false_ne_true
      · cases h
    · next digits => exact absurd rfl (hplus digits)
    · rw [h]
      rfl

theorem integer?_singleton {c : Char} {n : Int} (h : integer? [c] = some n) :
    IsDigit c ∧ n = c.toNat - 48 := by
  have hdigits : ∀ n : Nat, digits? [c] = some n → IsDigit c ∧ n = c.toNat - 48 := by
    intro n hn
    unfold digits? at hn
    split at hn
    · next hdigit =>
      have hc : c.isDigit = true := by simpa using hdigit.2
      refine ⟨isDigit_iff.mp hc, ?_⟩
      cases hn
      exact Nat.zero_add _
    · cases hn
  unfold integer? at h
  split at h
  · next hsign =>
    cases hsign
    cases h
  · next hsign =>
    cases hsign
    cases h
  · cases hm : digits? [c] with
    | none =>
      rw [hm] at h
      cases h
    | some m =>
      rw [hm] at h
      obtain ⟨hdigit, rfl⟩ := hdigits m hm
      have hlow : 48 ≤ c.toNat := hdigit.1
      cases h
      exact ⟨hdigit, Int.ofNat_sub hlow⟩

theorem trimChars_singleton (c : Char) : trimChars [c] = [] ∨ trimChars [c] = [c] := by
  cases hblank : isBlank c with
  | true =>
    left
    simp [trimChars, hblank]
  | false =>
    right
    simp [trimChars, hblank]

end Text

namespace Value
variable {text : String} {primitive encoding : Primitive} {value named : Value}

theorem integer?_of_integerLiteral? {chars : List Char} {n : Int}
    (h : integerLiteral? chars primitive = some n) : Text.integer? chars = some n := by
  unfold integerLiteral? at h
  split at h
  · cases hm : Text.natural? chars with
    | none =>
      rw [hm] at h
      cases h
    | some m =>
      rw [hm] at h
      cases h
      exact Text.integer?_of_natural? hm
  · exact h

theorem exists_of_character (h : ofLiteral text .char = .ok value) :
    ∃ c, text.toList = [c] ∧ value = .long (Int64.ofNat c.toNat) 1 := by
  unfold ofLiteral at h
  dsimp only at h
  split at h
  · next byte hbytes =>
    cases h
    obtain ⟨c, hchars, hbyte⟩ := Text.exists_of_utf8 hbytes
    exact ⟨c, hchars, by rw [hbyte]⟩
  · cases h

theorem exists_of_integer (hchar : primitive ≠ .char) (hinteger : primitive.isFloating = false)
    (h : ofLiteral text primitive = .ok value) :
    ∃ n, Text.integer? (Text.trimChars text.toList) = some n ∧
      value = .long (Int64.ofInt n) primitive.size := by
  unfold ofLiteral at h
  cases primitive with
  | char => exact absurd rfl hchar
  | float => cases hinteger
  | double => cases hinteger
  | _ =>
    dsimp only at h
    split at h
    · next hread =>
      cases h
      obtain ⟨n, hn, hrange⟩ := Option.bind_eq_some_iff.mp hread
      split at hrange
      · cases hrange
        exact ⟨n, integer?_of_integerLiteral? hn, rfl⟩
      · cases hrange
    · cases h

theorem same_long (a b : Int64) (size width : Nat) :
    ((long a size == long b width) = true) ↔ a = b :=
  decide_eq_true_iff

/-- The digit of a number is a character of another value. -/
theorem character_ne_integer (hcharacter : ofLiteral text .char = .ok named)
    (hchar : primitive ≠ .char) (hinteger : primitive.isFloating = false)
    (h : ofLiteral text primitive = .ok value) :
    ¬ (named == value) = true ∧ ¬ (value == named) = true := by
  obtain ⟨c, hchars, rfl⟩ := exists_of_character hcharacter
  obtain ⟨n, hn, rfl⟩ := exists_of_integer hchar hinteger h
  rw [hchars] at hn
  have hdigit : Text.IsDigit c ∧ n = c.toNat - 48 := by
    rcases Text.trimChars_singleton c with htrim | htrim
    · rw [htrim] at hn
      cases hn
    · rw [htrim] at hn
      exact Text.integer?_singleton hn
  obtain ⟨⟨hlow, hhigh⟩, rfl⟩ := hdigit
  have hlow : 48 ≤ c.toNat := hlow
  have hhigh : c.toNat ≤ 57 := hhigh
  have hcode : (Int64.ofNat c.toNat).toInt = c.toNat := by
    rw [← Int64.ofInt_eq_ofNat]
    exact Int64.toInt_ofInt_of_le (by omega) (by omega)
  have hnumber : (Int64.ofInt (c.toNat - 48)).toInt = c.toNat - 48 :=
    Int64.toInt_ofInt_of_le (by omega) (by omega)
  have hne : Int64.ofNat c.toNat ≠ Int64.ofInt (c.toNat - 48) := by
    intro heq
    rw [heq, hnumber] at hcode
    omega
  rw [same_long, same_long]
  exact ⟨hne, hne.symm⟩

theorem floating_ne_integer (hfloating : primitive.isFloating = true)
    (h : ofLiteral text primitive = .ok value) (hinteger : encoding.isFloating = false)
    (hnamed : ofLiteral text encoding = .ok named) : ¬ (value == named) = true := by
  obtain ⟨n, rfl⟩ := (ofPrimitive_of_literal hnamed).eq_long hinteger
  cases ofPrimitive_of_literal h with
  | long hholds => exact absurd hfloating (by rw [hholds.not_floating]; exact Bool.false_ne_true)
  | double => exact Bool.false_ne_true
  | single => exact Bool.false_ne_true

end Value

namespace EncodedType
variable {type : EncodedType} {text : String} {encoding : Primitive} {value named : Value}

/-- Whether a type reads the text of a value as an enum of the encoding does. -/
def ReadsLike (type : EncodedType) (encoding : Primitive) : Prop :=
  (encoding = .char ∧ type.primitive = .char ∧ type.length.toInt ≤ 1) ∨
    (encoding = .uint8 ∧ type.primitive ≠ .char ∧ type.primitive.isFloating = false)

theorem same_of_readsLike (h : type.ReadsLike encoding)
    (hvalue : Value.ofLiteral text type.primitive = .ok value)
    (hnamed : Value.ofLiteral text encoding = .ok named) : (value == named) = true := by
  rcases h with ⟨rfl, hchar, -⟩ | ⟨rfl, hchar, hinteger⟩
  · rw [hchar, hnamed] at hvalue
    cases hvalue
    obtain ⟨c, -, rfl⟩ := Value.exists_of_character hnamed
    exact (Value.same_long ..).mpr rfl
  · obtain ⟨n, hn, rfl⟩ := Value.exists_of_integer hchar hinteger hvalue
    obtain ⟨m, hm, rfl⟩ := Value.exists_of_integer (by decide) rfl hnamed
    rw [hn] at hm
    cases hm
    exact (Value.same_long ..).mpr rfl

theorem readsLike_of_same (hencoding : encoding = .char ∨ encoding = .uint8)
    (hlength : ¬ (type.primitive = .char ∧ 1 < type.length.toInt))
    (hvalue : Value.ofLiteral text type.primitive = .ok value)
    (hnamed : Value.ofLiteral text encoding = .ok named) (h : (value == named) = true) :
    type.ReadsLike encoding := by
  have hnarrow := Primitive.isFloating_of_narrow hencoding
  have hinteger : type.primitive.isFloating = false := by
    rw [← Bool.not_eq_true]
    exact fun hfloating => Value.floating_ne_integer hfloating hvalue hnarrow hnamed h
  by_cases hchar : type.primitive = .char
  · rcases hencoding with rfl | rfl
    · exact .inl ⟨rfl, hchar, Int.not_lt.mp fun hlong => hlength ⟨hchar, hlong⟩⟩
    · rw [hchar] at hvalue
      exact absurd h (Value.character_ne_integer hvalue (by decide) rfl hnamed).1
  · rcases hencoding with rfl | rfl
    · exact absurd h (Value.character_ne_integer hnamed hchar hinteger hvalue).2
    · exact .inr ⟨rfl, hchar, hinteger⟩

/-- Two readings of one text come to the same value exactly if they are alike. -/
theorem same_iff_readsLike (hencoding : encoding = .char ∨ encoding = .uint8)
    (hvalue : type.ofLiteral text = .ok value)
    (hnamed : Value.ofLiteral text encoding = .ok named) :
    (value == named) = true ↔ type.ReadsLike encoding := by
  unfold ofLiteral at hvalue
  split at hvalue
  · next hchars =>
    -- an array of characters is no integer
    obtain ⟨content, rfl, -⟩ := Value.bytes_of_arrayLiteral (by omega) hvalue
    obtain ⟨n, rfl⟩ := (Value.ofPrimitive_of_literal hnamed).eq_long
      (Primitive.isFloating_of_narrow hencoding)
    refine ⟨fun h => absurd h Bool.false_ne_true, fun h => ?_⟩
    rcases h with ⟨-, -, hlength⟩ | ⟨-, hchar, -⟩
    · omega
    · exact absurd hchars.1 hchar
  · next hlength =>
    exact ⟨readsLike_of_same hencoding hlength hvalue hnamed,
      fun h => same_of_readsLike h hvalue hnamed⟩

/-- A reference names a value of a declared enum, and the constant has that
value exactly if its type reads the text of the value as the enum does. -/
def TakesValue (types : Table String DataType) (type : EncodedType) (reference : String) : Prop :=
  ∃ enumName valueName info enum named value, reference = enumName ++ "." ++ valueName ∧
    types.get? enumName = some (.enum info enum) ∧ enum.value? valueName = some named ∧
    type.constValue = some value ∧
    ((value == named.value) = true ↔ type.ReadsLike enum.encoding)

end EncodedType

theorem NamedValue.Listed.find?_eq {encoding : Primitive} {values : List NamedValue}
    (h : Listed encoding values) {named : NamedValue} (hmem : named ∈ values) :
    values.find? (fun value => value.name = named.name) = some named :=
  find?_key (h.distinct.imp And.left) hmem

namespace TypeReader
open Check (Yields)
open Xml (Element)

/-- Where a part is a constant by reference, its value is read from the text
that the reference names. -/
def Resolved (declared : Table String Element) (part : DataType) : Prop :=
  ∀ info type, part = .encoded info type → info.presence = .constant →
    ∀ reference ∈ type.valueRef, ∃ text value, NamesText declared reference text ∧
      type.constValue = some value ∧ type.ofLiteral text = .ok value

theorem readAs_resolved (declared : Table String Element) :
    ReadAs declared fun type => ∀ part : DataType, part.Inside type → Resolved declared part where
  encoded h part hpart := by
    cases hpart
    rintro _ _ ⟨⟩
    exact h.refers
  enum _ part hpart := by
    cases hpart
    rintro _ _ ⟨⟩
  set _ part hpart := by
    cases hpart
    rintro _ _ ⟨⟩
  composite _ hmembers _ part hpart := by
    cases hpart with
    | self => rintro _ _ ⟨⟩
    | member hmember hinside => exact hmembers.1 _ hmember part hinside
  copy {type} name offset sinceVersion h _ part hpart := by
    cases type with
    | encoded info type =>
      cases hpart
      rintro _ _ ⟨⟩
      exact h _ .self info type rfl
    | composite info members =>
      cases hpart with
      | self => rintro _ _ ⟨⟩
      | member hmember hinside => exact h part (.member hmember hinside)
    | enum info type =>
      cases hpart
      rintro _ _ ⟨⟩
    | set info type =>
      cases hpart
      rintro _ _ ⟨⟩

def noted (seen : Table String Element) (element : Element) : Table String Element :=
  (element.attribute? "name").elim seen (seen.insert · element)

theorem declared_eq_foldl (root : Element) :
    declared root = (declarations root).foldl noted .empty := by
  refine (foldl_declared ?_ ?_ _ _).symm
  · intro table element name h
    rw [noted, h, Option.elim_some]
  · intro table element h
    rw [noted, h, Option.elim_none]

/-- Types that have been read: constants by reference among them are resolved,
and every enum that has been seen last of its name stands under it. -/
structure Backed (declared seen : Table String Element) (types : Table String DataType) :
    Prop where
  parts : ∀ entry ∈ types.entries, ∀ part : DataType, part.Inside entry.2 → Resolved declared part
  enums : ∀ {name element}, seen.get? name = some element → element.name = "enum" →
    ∃ info type, types.get? name = some (.enum info type) ∧ ReadsEnum element info type

theorem gives_readType_enum (known : Known) (fuel : Nat) {element : Element}
    (hkind : element.name = "enum") :
    Gives (readType known fuel element) fun result => ∃ info type,
      result = some (.enum info type) ∧ ReadsEnum element info type := by
  cases fuel with
  | zero => exact fun _ => .throw _ _
  | succ fuel =>
    simp only [readType, hkind]
    exact .lift (yields_readEnum known element)

section
variable {declared seen : Table String Element} {types : Table String DataType}
  {element : Element}

theorem Backed.none (h : Backed declared seen types) (hkind : element.name ≠ "enum") :
    Backed declared (noted seen element) types where
  parts := h.parts
  enums {name other} hseen henum := by
    cases hname : element.attribute? "name" with
    | none =>
      rw [noted, hname, Option.elim_none] at hseen
      exact h.enums hseen henum
    | some own =>
      rw [noted, hname, Option.elim_some, Table.get?_insert] at hseen
      split at hseen
      · cases hseen
        exact absurd henum hkind
      · exact h.enums hseen henum

theorem Backed.some (h : Backed declared seen types) {type : DataType}
    (hname : element.attribute? "name" = some type.name)
    (hparts : ∀ part : DataType, part.Inside type → Resolved declared part)
    (henum : element.name = "enum" → ∃ info enum, type = .enum info enum ∧
      ReadsEnum element info enum) :
    Backed declared (noted seen element) (types.insert type.name type) where
  parts entry hentry := by
    rcases Table.mem_insertEntry hentry with rfl | hentry
    · exact hparts
    · exact h.parts entry hentry
  enums {name other} hseen hkind := by
    rw [noted, hname, Option.elim_some, Table.get?_insert] at hseen
    rw [Table.get?_insert]
    split at hseen
    · next hself =>
      cases hseen
      obtain ⟨info, enum, rfl, hread⟩ := henum hkind
      exact ⟨info, enum, if_pos hself, hread⟩
    · next hother =>
      rw [if_neg hother]
      exact h.enums hseen hkind

end

/-- One more declaration: it is read without an error, and an enum gives a type. -/
theorem yields_noted (declared seen : Table String Element) (types : Table String DataType)
    (fuel : Nat) (element : Element) :
    Yields (do
      (← byFuel fuel ⟨declared, types⟩ element).elim (pure types) (addType types)) fun next =>
      Backed declared seen types → Backed declared (noted seen element) next := by
  have hread : Yields (byFuel fuel ⟨declared, types⟩ element) fun result => ∀ t ∈ result,
      element.attribute? "name" = some t.name ∧
        (Backed declared seen types → ∀ part : DataType, part.Inside t →
          Resolved declared part) := by
    refine .map ((readAs_resolved declared).gives_readType fuel element []) ?_
    exact fun _ h t ht => ⟨(h t ht).1, fun hbacked => (h t ht).2 hbacked.parts⟩
  have henum : Yields (byFuel fuel ⟨declared, types⟩ element) fun result =>
      element.name = "enum" → ∃ info type, result = some (.enum info type) ∧
        ReadsEnum element info type := by
    by_cases hkind : element.name = "enum"
    · exact .map (gives_readType_enum _ fuel hkind []) fun _ h _ => h
    · exact hread.mono fun _ _ h => absurd h hkind
  refine .bind (hread.and henum) fun result => ?_
  cases result with
  | none =>
    refine .pure fun h hbacked => hbacked.none fun hkind => ?_
    obtain ⟨_, _, hnone, -⟩ := h.2 hkind
    cases hnone
  | some type =>
    refine (yields_addType types type).mono ?_
    rintro _ rfl ⟨htype, henum⟩ hbacked
    obtain ⟨hname, hparts⟩ := htype type rfl
    refine hbacked.some hname (hparts hbacked) fun hkind => ?_
    obtain ⟨info, enum, hsome, hread⟩ := henum hkind
    cases hsome
    exact ⟨info, enum, rfl, hread⟩

/-- By induction on the declarations that are left. -/
theorem yields_backed (root : Element) (fuel : Nat) (elements : List Element)
    (seen : Table String Element) (types : Table String DataType) :
    Yields (readBy (byFuel fuel) root elements types) fun result =>
      Backed (declared root) seen types →
        Backed (declared root) (elements.foldl noted seen) result := by
  induction elements generalizing seen types with
  | nil => exact .pure id
  | cons element rest ih =>
    unfold readBy at ih ⊢
    rw [List.foldlM_cons, List.foldl_cons]
    refine .bind (yields_noted (declared root) seen types fuel element) fun next => ?_
    exact (ih (noted seen element) next).mono fun _ hrest hnext h => hrest (hnext h)

theorem backed_builtIn (declared : Table String Element) :
    Backed declared .empty Schema.builtInTypes where
  parts entry hentry part hpart := by
    obtain ⟨primitive, rfl⟩ := exists_of_builtIn hentry
    cases hpart
    rintro _ _ ⟨⟩ ⟨⟩
  enums hseen _ := by cases hseen

theorem yields_readAll_backed (root : Element) :
    Yields (readAll root) (Backed (declared root) (declared root)) := by
  rw [readAll_eq]
  refine (yields_backed root (depth root) (declarations root) .empty _).mono fun types h => ?_
  rw [declared_eq_foldl root]
  rw [declared_eq_foldl root] at h
  exact h (backed_builtIn _)

theorem Backed.takesValue {declared : Table String Element} {types : Table String DataType}
    (h : Backed declared declared types) {info : TypeInfo} {type : EncodedType}
    (hpart : Resolved declared (.encoded info type)) (hconstant : info.presence = .constant)
    {reference : String} (hreference : reference ∈ type.valueRef) :
    type.TakesValue types reference := by
  obtain ⟨text, value, hnames, hvalue, hread⟩ := hpart info type rfl hconstant reference hreference
  obtain ⟨enumName, valueName, element, hdotted, hdeclared, hkind, child, hchild, hname, htext⟩ :=
    hnames
  obtain ⟨enumInfo, enum, henum, hreads⟩ := h.enums hdeclared hkind
  obtain ⟨named, hnamed, hown, hliteral⟩ := hreads.values child hchild
  rw [hname] at hown
  cases hown
  rw [htext] at hliteral
  cases hreads.valid with
  | enum _ hvalid =>
    exact ⟨enumName, named.name, enumInfo, enum, named, value, Text.eq_of_dottedName? hdotted,
      henum, hvalid.values.find?_eq hnamed, hvalue,
      EncodedType.same_iff_readsLike hvalid.encoding hread hliteral⟩

end TypeReader

namespace Schema

/-- In an accepted schema a constant that refers to a value of an enum refers to
one that there is. It has that value if it reads characters as the enum does,
or integers as the enum does, and another value otherwise. -/
theorem takesValue_of_parse {document : String} {policy : Policy} {schema : Schema}
    (h : parse document policy = .ok schema) :
    ∀ entry ∈ schema.types.entries, ∀ (info : TypeInfo) (type : EncodedType),
      (DataType.encoded info type).Inside entry.2 → info.presence = .constant →
      ∀ reference ∈ type.valueRef, type.TakesValue schema.types reference := by
  intro entry hentry info type hinside hconstant reference hreference
  obtain ⟨root, _, _, hroot⟩ := exists_ofRoot h
  have hbacked := (run_ofRoot hroot).1 _ (TypeReader.yields_readAll_backed root)
  exact hbacked.takesValue (hbacked.parts entry hentry _ hinside) hconstant hreference

/-- A digit that is a character in an enum, and a number in a constant ahead of
the enum. The enum that is declared first of the name does not count. -/
def digits : String :=
  withHeader "<messageSchema package='p' id='7'><types>"
    "<enum name='Digit' encodingType='uint8'><validValue name='Five'>6</validValue>
    </enum><type name='Count' primitiveType='uint8' presence='constant' valueRef='Digit.Five'/>
    <composite name='Row'>
    <type name='sign' primitiveType='char' presence='constant' valueRef='Digit.Five'/>
    <ref name='count' type='Count'/></composite>
    <enum name='Digit' encodingType='char'><validValue name='Five'>5</validValue></enum></types>
    </messageSchema>"

def glance (type : DataType) : Option (Presence × Option String × Option Value) :=
  type.encoded?.map fun encoded => (type.info.presence, encoded.valueRef, encoded.constValue)

theorem exists_of_glance {type : Option DataType} {presence : Presence}
    {reference : Option String} {value : Option Value}
    (h : type.bind glance = some (presence, reference, value)) :
    ∃ info encoded, type = some (.encoded info encoded) ∧ info.presence = presence ∧
      encoded.valueRef = reference ∧ encoded.constValue = value := by
  obtain ⟨type, rfl, hglance⟩ := Option.bind_eq_some_iff.mp h
  obtain ⟨encoded, hencoded, hview⟩ := Option.map_eq_some_iff.mp hglance
  obtain ⟨info, rfl⟩ := DataType.exists_of_encoded? hencoded
  cases hview
  exact ⟨info, encoded, rfl, rfl, rfl, rfl⟩

/-- The constant `Count`, the first member of `Row`, and the value of the enum. -/
structure Fives where
  count : Option (Presence × Option String × Option Value)
  sign : Option (Presence × Option String × Option Value)
  digit : Option Value
  deriving DecidableEq

def fives (schema : Schema) : Fives where
  count := (schema.types.get? "Count").bind glance
  sign := (((schema.types.get? "Row").bind DataType.composite?).bind (·.head?)).bind glance
  digit := (((schema.types.get? "Digit").bind DataType.enum?).bind (·.value? "Five")).map (·.value)

theorem fives_digits : (parse digits {}).toOption.map fives = some {
    count := some (.constant, some "Digit.Five", some (.long 5 1))
    sign := some (.constant, some "Digit.Five", some (.long 53 1))
    digit := some (.long 53 1) } := by
  rw [digits, parse_withHeader String.toList_ofList String.toList_ofList]
  decide +kernel

/-- As a member of a composite, a character is the one that it names. -/
theorem takesValue_digits :
    ∃ schema, parse digits {} = .ok schema ∧ ∃ entry ∈ schema.types.entries,
      ∃ (info : TypeInfo) (type : EncodedType), (DataType.encoded info type).Inside entry.2 ∧
        info.presence = .constant ∧ "Digit.Five" ∈ type.valueRef ∧
        type.TakesValue schema.types "Digit.Five" := by
  obtain ⟨schema, hparse, hview⟩ := exists_of_parse fives_digits
  obtain ⟨-, hsign, -⟩ := Fives.mk.inj hview
  obtain ⟨info, type, hmember, hconstant, hreference, -⟩ := exists_of_glance hsign
  obtain ⟨members, hmembers, hhead⟩ := Option.bind_eq_some_iff.mp hmember
  obtain ⟨row, hrow, hcomposite⟩ := Option.bind_eq_some_iff.mp hmembers
  obtain ⟨rowInfo, rfl⟩ := DataType.exists_of_composite? hcomposite
  have hinside : (DataType.encoded info type).Inside (.composite rowInfo members) :=
    .member (List.mem_of_mem_head? hhead) .self
  have hentry := Table.mem_of_get? hrow
  exact ⟨schema, hparse, _, hentry, info, type, hinside, hconstant, hreference,
    takesValue_of_parse hparse _ hentry info type hinside hconstant _ hreference⟩

/-- As a number, the digit is not the character that it names. -/
theorem miscounted_digits :
    ∃ schema, parse digits {} = .ok schema ∧ ∃ info type enumInfo enum named value,
      schema.types.get? "Count" = some (.encoded info type) ∧ info.presence = .constant ∧
      type.valueRef = some ("Digit" ++ "." ++ "Five") ∧
      schema.types.get? "Digit" = some (.enum enumInfo enum) ∧
      enum.value? "Five" = some named ∧ type.constValue = some value ∧
      (value == named.value) = false := by
  obtain ⟨schema, hparse, hview⟩ := exists_of_parse fives_digits
  obtain ⟨hcount, -, hdigit⟩ := Fives.mk.inj hview
  obtain ⟨info, type, hget, hconstant, hreference, hvalue⟩ := exists_of_glance hcount
  obtain ⟨named, hnamed, hfive⟩ := Option.map_eq_some_iff.mp hdigit
  obtain ⟨enum, henum, hnamed⟩ := Option.bind_eq_some_iff.mp hnamed
  obtain ⟨digit, hdeclared, hkind⟩ := Option.bind_eq_some_iff.mp henum
  obtain ⟨enumInfo, rfl⟩ := DataType.exists_of_enum? hkind
  refine ⟨schema, hparse, info, type, enumInfo, enum, named, _, hget, hconstant, ?_, hdeclared,
    hnamed, hvalue, ?_⟩
  · rw [hreference]
    rfl
  · rw [hfive]
    decide

end Schema
end SimpleBinary
