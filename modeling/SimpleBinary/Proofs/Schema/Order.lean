import SimpleBinary.Proofs.Schema.Meaning
import SimpleBinary.Proofs.Schema.Policy

/-! The order of declarations. Where every declaration has a name of its own,
the types of a document are what the names mean, and so the document comes to
the same schema in whatever order its types are declared. -/
namespace SimpleBinary

namespace Xml.Element

mutual

def same : Element → Element → Bool
  | ⟨name, attributes, text, children⟩, other =>
    name = other.name && attributes = other.attributes && text = other.text &&
      sameAll children other.children

def sameAll : List Element → List Element → Bool
  | [], others => others.isEmpty
  | child :: rest, others =>
    others.head?.any (same child) && sameAll rest others.tail

end

mutual

theorem same_iff : ∀ element other : Element, same element other = true ↔ element = other
  | ⟨name, attributes, text, children⟩, other => by
    cases other
    simp [same, sameAll_iff children, and_assoc]

theorem sameAll_iff : ∀ elements others : List Element,
    sameAll elements others = true ↔ elements = others
  | [], others => by
    cases others <;> simp [sameAll]
  | child :: rest, others => by
    cases others with
    | nil => simp [sameAll]
    | cons other others => simp [sameAll, same_iff child, sameAll_iff rest]

end

instance : DecidableEq Element :=
  fun element other => decidable_of_iff _ (same_iff element other)

end Xml.Element

namespace Check.Yields
variable {α : Type} {check : Check α} {post : α → Prop}

theorem of_result? (h : Yields check post) {value : α} (hvalue : check.result? = some value) :
    post value := by
  obtain ⟨after, hrun, hclean⟩ := result?_eq_some.mp hvalue
  exact (h _ value after hrun hclean).2

/-- A hypothesis may wait for the result. -/
theorem wait {endless : Bool} {hypothesis : Prop} (hscript : Scripted check endless)
    (h : hypothesis → Yields check post) :
    Yields check fun value => hypothesis → post value := by
  by_cases hholds : hypothesis
  · exact (h hholds).mono fun _ hpost _ => hpost
  · exact hscript.yields.mono fun _ _ hyes => absurd hyes hholds

end Check.Yields

namespace TypeReader
open Check (Passes Scripted Yields)
open Xml (Element)

theorem yields_readLeaf_name (declared : Table String Element) (element : Element) :
    Yields (readLeaf declared element) fun type =>
      ∀ t ∈ type, element.attribute? "name" = some t.name := by
  unfold readLeaf
  split
  · refine (yields_readEncoded _ element).mono ?_
    rintro _ ⟨info, type, rfl, hread⟩ _ ⟨⟩
    exact hread.name
  · split
    · refine (yields_readEnum _ element).mono ?_
      rintro _ ⟨info, type, rfl, hread⟩ _ ⟨⟩
      exact hread.name
    · split
      · refine (yields_readSet _ element).mono ?_
        rintro _ ⟨info, type, rfl, hread⟩ _ ⟨⟩
        exact hread.name
      · exact .pure nofun

theorem yields_composed_name (element : Element) (name : String) (presence : Presence)
    (members : List DataType) :
    Yields (composed element name presence members) fun type => type.name = name := by
  refine .bind (scripted_memberOffsets name members 0).yields fun _ => ?_
  refine .bind (yields_typeInfo element name presence) fun info => .pure ?_
  exact fun hinfo _ => hinfo.2.1

theorem name_of_meaning {declared : Table String Element} {table : String → Option DataType}
    {element : Element} {type : DataType}
    (h : meaning declared table element = some (some type)) :
    element.attribute? "name" = some type.name := by
  by_cases hkind : element.name = "composite"
  · rw [meaning_composite hkind] at h
    simp only [Option.bind_eq_bind, Option.bind_eq_some_iff] at h
    obtain ⟨name, hname, presence, -, members, -, composite, hcomposed, hresult⟩ := h
    cases hresult
    rw [hname, (yields_composed_name element name _ members).of_result? hcomposed]
  · rw [meaning_leaf hkind] at h
    exact (yields_readLeaf_name declared element).of_result? h type rfl

def typeNames (root : Element) : List String :=
  (declarations root).filterMap (·.attribute? "name")

theorem typeNames_eq (root : Element) :
    typeNames root = ((declarations root).filterMap fun element =>
      (element.attribute? "name").map (·, element)).map (·.1) := by
  rw [List.map_filterMap, typeNames]
  congr 1
  funext element
  cases element.attribute? "name" <;> rfl

/-- Every declaration is known by its name: no other has it, it is not that of a
primitive, and no composite in place has one of these names. -/
structure WellNamed (root : Element) : Prop where
  distinct : (typeNames root).Nodup
  primitive : ∀ name ∈ typeNames root, Primitive.ofName? name = none
  inline : ∀ declaration ∈ declarations root, ∀ name ∈ inlineNames declaration,
    name ∉ typeNames root ∧ Primitive.ofName? name = none

instance (root : Element) : Decidable (WellNamed root) :=
  decidable_of_iff ((typeNames root).Nodup ∧
      (∀ name ∈ typeNames root, Primitive.ofName? name = none) ∧
      ∀ declaration ∈ declarations root, ∀ name ∈ inlineNames declaration,
        name ∉ typeNames root ∧ Primitive.ofName? name = none)
    ⟨fun h => ⟨h.1, h.2.1, h.2.2⟩, fun h => ⟨h.distinct, h.primitive, h.inline⟩⟩

theorem builtIn_eq_none {name : String} (h : Primitive.ofName? name = none) :
    Schema.builtInTypes.get? name = none := by
  cases hget : Schema.builtInTypes.get? name with
  | none => rfl
  | some type =>
    obtain ⟨primitive, heq⟩ := exists_of_builtIn (Table.mem_of_get? hget)
    cases heq
    rw [Primitive.ofName?_name] at h
    cases h

namespace WellNamed
variable {root : Element}

theorem get?_iff (h : WellNamed root) {name : String} {declaration : Element} :
    (declared root).get? name = some declaration ↔
      declaration ∈ declarations root ∧ declaration.attribute? "name" = some name := by
  refine ⟨mem_declarations, fun ⟨hmem, hname⟩ => ?_⟩
  have hkeys := h.distinct
  rw [typeNames_eq] at hkeys
  have hentry : (name, declaration) ∈ (declarations root).filterMap fun element =>
      (element.attribute? "name").map (·, element) :=
    List.mem_filterMap.mpr ⟨declaration, hmem, by rw [hname]; rfl⟩
  exact Table.get?_addAll_of_mem hkeys hentry .empty

theorem mem_typeNames {name : String} {declaration : Element}
    (h : (declared root).get? name = some declaration) : name ∈ typeNames root := by
  obtain ⟨hmem, hname⟩ := mem_declarations h
  exact List.mem_filterMap.mpr ⟨declaration, hmem, hname⟩

theorem inline_unknown (h : WellNamed root) {declaration : Element}
    (hmem : declaration ∈ declarations root) {inner : String}
    (hinner : inner ∈ inlineNames declaration) :
    (declared root).get? inner = none ∧ Schema.builtInTypes.get? inner = none := by
  obtain ⟨hnew, hprimitive⟩ := h.inline declaration hmem inner hinner
  refine ⟨?_, builtIn_eq_none hprimitive⟩
  cases hget : (declared root).get? inner with
  | none => rfl
  | some declaration => exact absurd (mem_typeNames hget) hnew

theorem orderly (h : WellNamed root) : Orderly (declared root) root.weight where
  named hdeclared := (mem_declarations hdeclared).2
  weight hdeclared := weight_le_of_declarations (mem_declarations hdeclared).1
  builtIn hdeclared := builtIn_eq_none (h.primitive _ (mem_typeNames hdeclared))
  inline hdeclared _ hinner := h.inline_unknown (mem_declarations hdeclared).1 hinner

end WellNamed

/-- There is no error in a declaration, nor in any that it refers to. -/
def Meaningful (root declaration : Element) : Prop :=
  ∃ references type, meaning (declared root) (refer (declared root) references) declaration =
    some type

/-- Types that have been read stand for what their names mean, and those of the
declarations before are all there. -/
structure Holds (root : Element) (before : List Element) (types : Table String DataType) :
    Prop where
  builtIn : Extends Schema.builtInTypes.get? types.get?
  sound : ∃ references, Extends types.get? (refer (declared root) references)
  complete : ∀ declaration ∈ before, ∀ name, declaration.attribute? "name" = some name →
    ∀ references type, refer (declared root) references name = some type →
      types.get? name = some type

namespace Holds
variable {root declaration : Element} {before : List Element} {types : Table String DataType}

theorem nil (root : Element) : Holds root [] Schema.builtInTypes where
  builtIn _ _ h := h
  sound := ⟨0, fun _ _ h => h⟩
  complete := nofun

theorem add (h : Holds root before types) (hnamed : WellNamed root)
    (hmem : declaration ∈ declarations root) {references : Nat} {type : Option DataType}
    (hmeaning : meaning (declared root) (refer (declared root) references) declaration =
      some type) :
    Holds root (before ++ [declaration])
      (type.elim types fun type => types.insert type.name type) := by
  obtain ⟨steps, hsound⟩ := h.sound
  cases type with
  | none =>
    refine ⟨h.builtIn, h.sound, fun other hother name hname count found hfound => ?_⟩
    rcases List.mem_append.mp hother with hbefore | hlast
    · exact h.complete other hbefore name hname count found hfound
    · -- a declaration without a type leaves its name without one
      cases List.mem_singleton.mp hlast
      have hdeclared := hnamed.get?_iff.mpr ⟨hmem, hname⟩
      obtain ⟨again, least, hagain, hleast, -⟩ :=
        exists_declaration (hnamed.orderly.builtIn hdeclared) hfound
      cases hdeclared.symm.trans hagain
      cases meaning_unique hmeaning hleast
  | some type =>
    have hname := name_of_meaning hmeaning
    have hdeclared := hnamed.get?_iff.mpr ⟨hmem, hname⟩
    have hbuiltIn := hnamed.orderly.builtIn hdeclared
    have hrefer := refer_of_meaning hdeclared hbuiltIn hmeaning
    refine ⟨fun name found hfound => ?_, ⟨max steps (references + 1), fun name found hfound => ?_⟩,
      fun other hother name howned count found hfound => ?_⟩
    · have hne : name ≠ type.name := by
        rintro rfl
        rw [hbuiltIn] at hfound
        cases hfound
      rw [Option.elim_some, Table.get?_insert_of_ne types hne]
      exact h.builtIn name found hfound
    · by_cases hsame : name = type.name
      · rw [hsame, Option.elim_some, Table.get?_insert_self] at hfound
        cases hfound
        rw [hsame]
        exact refer_mono (Nat.le_max_right _ _) type.name type hrefer
      · rw [Option.elim_some, Table.get?_insert_of_ne types hsame] at hfound
        exact refer_mono (Nat.le_max_left _ _) name found (hsound name found hfound)
    · by_cases hsame : name = type.name
      · rw [hsame] at hfound
        rw [hsame, Option.elim_some, Table.get?_insert_self, refer_unique hrefer hfound]
      · have hbefore : other ∈ before := by
          refine (List.mem_append.mp hother).resolve_right fun hlast => hsame ?_
          cases List.mem_singleton.mp hlast
          exact Option.some.inj (howned.symm.trans hname)
        rw [Option.elim_some, Table.get?_insert_of_ne types hsame]
        exact h.complete other hbefore name howned count found hfound

theorem get?_iff (h : Holds root (declarations root) types) {name : String} {type : DataType} :
    types.get? name = some type ↔
      ∃ references, refer (declared root) references name = some type := by
  constructor
  · intro htype
    obtain ⟨references, hsound⟩ := h.sound
    exact ⟨references, hsound name type htype⟩
  · rintro ⟨references, hrefer⟩
    cases hbuilt : Schema.builtInTypes.get? name with
    | some built =>
      have hzero : refer (declared root) 0 name = some built := hbuilt
      rw [refer_unique hrefer hzero]
      exact h.builtIn name built hbuilt
    | none =>
      obtain ⟨declaration, _, hdeclared, -⟩ := exists_declaration hbuilt hrefer
      obtain ⟨hmem, hname⟩ := mem_declarations hdeclared
      exact h.complete declaration hmem name hname references type hrefer

end Holds

theorem scripted_readByFuel (fuel : Nat) (root : Element) (elements : List Element)
    (types : Table String DataType) :
    Scripted (readBy (byFuel fuel) root elements types) true := by
  refine .foldlM (fun types element => ?_) _ _
  refine .bind (.map _ (follows_readType _ _ element [])) fun type => ?_
  cases type with
  | none => exact .pure types
  | some type => exact .guard (.warning _) (.pure _)

theorem passes_addType (types : Table String DataType) (type : DataType) :
    Passes (addType types type) (types.insert type.name type) := by
  unfold addType
  dsimp only
  split
  · exact .bind (.warning _) (.pure _)
  · exact .pure _

section
variable {root declaration : Element} {before elements : List Element}
  {types : Table String DataType}

/-- A declaration that is read without an error has a meaning, and it is added. -/
theorem yields_byFuel (hnamed : WellNamed root) (h : Holds root before types)
    (hmem : declaration ∈ declarations root) :
    Yields (do
      (← byFuel (depth root) ⟨declared root, types⟩ declaration).elim (pure types) (addType types))
      fun next => Meaningful root declaration ∧ Holds root (before ++ [declaration]) next := by
  obtain ⟨references, hsound⟩ := h.sound
  have hread : Yields (byFuel (depth root) ⟨declared root, types⟩ declaration) fun type =>
      meaning (declared root) (refer (declared root) (references + depth root)) declaration =
        some type :=
    .map (gives_meaning h.builtIn hsound (depth root) declaration []) fun _ h => h
  refine .bind hread fun type => ?_
  cases type with
  | none => exact .pure fun hmeaning => ⟨⟨_, _, hmeaning⟩, h.add hnamed hmem hmeaning⟩
  | some type =>
    refine (yields_addType types type).mono ?_
    rintro _ rfl hmeaning
    exact ⟨⟨_, _, hmeaning⟩, h.add hnamed hmem hmeaning⟩

/-- A declaration that has a meaning is read without an error: no reference on
the way leads back to a composite that is open. -/
theorem passes_byFuel (hnamed : WellNamed root) (h : Holds root before types)
    (hmem : declaration ∈ declarations root) {references : Nat} {type : Option DataType}
    (hmeaning : meaning (declared root) (refer (declared root) references) declaration =
      some type) :
    Passes (byFuel (depth root) ⟨declared root, types⟩ declaration) type := by
  have hleast : ∃ least,
      meaning (declared root) (refer (declared root) least) declaration = some type ∧
      ∀ name, declaration.attribute? "name" = some name →
        refer (declared root) least name = none := by
    cases hname : declaration.attribute? "name" with
    | none => exact ⟨references, hmeaning, nofun⟩
    | some name =>
      have hdeclared := hnamed.get?_iff.mpr ⟨hmem, hname⟩
      obtain ⟨least, hleast, hnew⟩ :=
        exists_least hdeclared (hnamed.orderly.builtIn hdeclared) hmeaning
      refine ⟨least, hleast, ?_⟩
      rintro _ ⟨⟩
      exact hnew
  obtain ⟨least, hleast, hown⟩ := hleast
  obtain ⟨steps, hsound⟩ := h.sound
  have hfuel : standing (declared root) least * root.weight + declaration.weight ≤ depth root := by
    have hkeys : standing (declared root) least ≤ (declared root).size :=
      Nat.le_trans List.countP_le_length (Nat.le_of_eq (List.length_map _))
    have hsize := Nat.mul_le_mul_right root.weight hkeys
    have hweight := weight_le_of_declarations hmem
    have hdepth := depth_le root
    rw [Nat.succ_mul] at hdepth
    omega
  refine (reads_meaning hnamed.orderly h.builtIn ?_ hfuel ?_ (fun _ => hown)
    (List.forall_mem_nil _) hleast).run'
  · exact fun name type htype => ⟨steps, hsound name type htype⟩
  · exact fun inner hinner => hnamed.inline_unknown hmem hinner

theorem yields_readBy (hnamed : WellNamed root) (h : Holds root before types)
    (hmem : ∀ declaration ∈ elements, declaration ∈ declarations root) :
    Yields (readBy (byFuel (depth root)) root elements types) fun final =>
      (∀ declaration ∈ elements, Meaningful root declaration) ∧
        Holds root (before ++ elements) final := by
  induction elements generalizing before types with
  | nil =>
    refine .pure ⟨nofun, ?_⟩
    rw [List.append_nil]
    exact h
  | cons declaration rest ih =>
    unfold readBy
    rw [List.foldlM_cons]
    refine .bind (yields_byFuel hnamed h (hmem declaration List.mem_cons_self)) fun next => ?_
    refine .wait (scripted_readByFuel (depth root) root rest next) fun ⟨hmeaning, hnext⟩ => ?_
    refine (ih hnext fun other hother => hmem other (List.mem_cons_of_mem _ hother)).mono ?_
    rintro final ⟨hrest, hfinal⟩
    rw [List.append_assoc] at hfinal
    exact ⟨List.forall_mem_cons.mpr ⟨hmeaning, hrest⟩, hfinal⟩

theorem passes_readBy (hnamed : WellNamed root) (h : Holds root before types)
    (hmem : ∀ declaration ∈ elements, declaration ∈ declarations root)
    (hmeaning : ∀ declaration ∈ elements, Meaningful root declaration) :
    ∃ final, Passes (readBy (byFuel (depth root)) root elements types) final ∧
      Holds root (before ++ elements) final := by
  induction elements generalizing before types with
  | nil =>
    refine ⟨types, .pure types, ?_⟩
    rw [List.append_nil]
    exact h
  | cons declaration rest ih =>
    have hthis := hmem declaration List.mem_cons_self
    obtain ⟨references, type, htype⟩ := hmeaning declaration List.mem_cons_self
    have hadded := h.add hnamed hthis htype
    obtain ⟨final, hfinal, hholds⟩ := ih hadded
      (fun other hother => hmem other (List.mem_cons_of_mem _ hother))
      fun other hother => hmeaning other (List.mem_cons_of_mem _ hother)
    rw [List.append_assoc] at hholds
    refine ⟨final, ?_, hholds⟩
    unfold readBy
    rw [List.foldlM_cons]
    refine .bind (.bind (passes_byFuel hnamed h hthis htype) ?_) hfinal
    cases type with
    | none => exact .pure types
    | some type => exact passes_addType types type

end

/-- The same document but for the order in which its types are declared, and
for how they are spread over blocks. -/
structure Rearranged (root other : Element) : Prop where
  name : root.name = other.name
  attributes : root.attributes = other.attributes
  messages : root.childrenNamed "message" = other.childrenNamed "message"
  declarations : (declarations root).Perm (TypeReader.declarations other)

instance (root other : Element) : Decidable (Rearranged root other) :=
  decidable_of_iff (root.name = other.name ∧ root.attributes = other.attributes ∧
      root.childrenNamed "message" = other.childrenNamed "message" ∧
      (declarations root).Perm (declarations other))
    ⟨fun h => ⟨h.1, h.2.1, h.2.2.1, h.2.2.2⟩,
      fun h => ⟨h.name, h.attributes, h.messages, h.declarations⟩⟩

namespace Rearranged
variable {root other : Element}

theorem symm (h : Rearranged root other) : Rearranged other root :=
  ⟨h.name.symm, h.attributes.symm, h.messages.symm, h.declarations.symm⟩

theorem wellNamed (h : Rearranged root other) (hnamed : WellNamed root) : WellNamed other := by
  have hnames : (typeNames root).Perm (typeNames other) := h.declarations.filterMap _
  refine ⟨hnames.nodup_iff.mp hnamed.distinct, fun name hname => ?_,
    fun declaration hmem name hname => ?_⟩
  · exact hnamed.primitive name (hnames.mem_iff.mpr hname)
  · rw [← hnames.mem_iff]
    exact hnamed.inline declaration (h.declarations.mem_iff.mpr hmem) name hname

theorem declared_eq (h : Rearranged root other) (hnamed : WellNamed root) :
    declared root = declared other := by
  refine Table.ext_get? fun name => Option.ext fun declaration => ?_
  rw [hnamed.get?_iff, (h.wellNamed hnamed).get?_iff, h.declarations.mem_iff]

theorem yields_readAll (h : Rearranged root other) (hnamed : WellNamed root) :
    Yields (readAll root) (Passes (readAll other)) := by
  rw [readAll_eq, readAll_eq]
  refine (yields_readBy hnamed (.nil root) fun _ hmem => hmem).mono ?_
  rintro types ⟨hmeaning, htypes⟩
  unfold Meaningful at hmeaning
  rw [h.declared_eq hnamed] at hmeaning
  obtain ⟨final, hfinal, hholds⟩ := passes_readBy (h.wellNamed hnamed) (.nil other)
    (fun _ hmem => hmem) fun declaration hmem =>
      hmeaning declaration (h.declarations.mem_iff.mpr hmem)
  have hsame : types = final := by
    refine Table.ext_get? fun name => Option.ext fun type => ?_
    rw [htypes.get?_iff, hholds.get?_iff, h.declared_eq hnamed]
  rw [hsame]
  exact hfinal

end Rearranged

end TypeReader

namespace Schema
open Check (Passes Scripted Yields)
open TypeReader (Rearranged WellNamed)
open Xml (Element)
variable {root other : Element}

theorem yields_ofRoot (h : Rearranged root other) (hnamed : WellNamed root) :
    Yields (ofRoot root) (Passes (ofRoot other)) := by
  have htypes := h.yields_readAll hnamed
  have hcheckpoint : Scripted Check.checkpoint := .checkpoint
  obtain ⟨name, attributes, text, children⟩ := root
  obtain ⟨_, _, otherText, otherChildren⟩ := other
  obtain ⟨rfl, rfl, hmessages, -⟩ := h
  unfold ofRoot
  refine .bind (Element.scripted_required _ "package").yields fun packageName => ?_
  refine .bind (Element.scripted_requiredWord _ "id").yields fun id => ?_
  refine .bind (Element.scripted_word _ "version" 0).yields fun version => ?_
  refine .bind htypes fun types => ?_
  refine .bind (scripted_checkHeader types _).yields fun _ => ?_
  refine .bind hcheckpoint.yields fun _ => ?_
  have hread : Scripted ((Element.childrenNamed ⟨name, attributes, text, children⟩ "message").foldlM
      (addMessage ⟨types, version⟩) .empty) :=
    .foldlM (fun messages element => scripted_addMessage _ messages element) _ _
  refine .bind hread.yields fun messages => ?_
  refine .bind hcheckpoint.yields fun _ => .pure ?_
  rw [hmessages]
  intro hlast hmessages hfirst hheader htypes hversion hid hpackage
  refine .bind hpackage (.bind hid (.bind hversion (.bind htypes (.bind hheader ?_))))
  exact .bind hfirst (.bind hmessages (.bind hlast (.pure _)))

theorem read_of_root {document : String} (hroot : Element.ofDocument document = .ok root) :
    read document = if root.name = "messageSchema" then ofRoot root
      else throw (.schema (.rootElement root.name)) := by
  simp only [read, hroot, ofXml]

theorem parse_other {document rearranged : String} {schema : Schema}
    (hroot : Element.ofDocument document = .ok root)
    (hother : Element.ofDocument rearranged = .ok other) (h : Rearranged root other)
    (hnamed : WellNamed root) (hparse : parse document {} = .ok schema) :
    parse rearranged {} = .ok schema := by
  have hlogged : readLogged document {} = (.ok schema, (readLogged document {}).2) :=
    Prod.ext hparse rfl
  have hclean : (readLogged document {}).2.Clean := by
    intro diagnostic hmem herror
    have hpassed := passed_of_readLogged hlogged diagnostic hmem
    rw [herror] at hpassed
    cases hpassed
  generalize (readLogged document {}).2 = log at hlogged hclean
  unfold readLogged at hlogged
  rw [read_of_root hroot] at hlogged
  by_cases hname : root.name = "messageSchema"
  · rw [if_pos hname] at hlogged
    obtain ⟨-, hpasses⟩ := yields_ofRoot h hnamed _ schema log hlogged hclean
    obtain ⟨after, hrun, -⟩ := hpasses [] (List.forall_mem_nil _)
    unfold parse readLogged
    rw [read_of_root hother, if_pos (h.name ▸ hname), hrun]
  · rw [if_neg hname] at hlogged
    cases hlogged

/-- The order of the declarations has no say. Where every one is known by its
name, what is declared before its use and what is declared behind it come to
the same schema, and what is refused in one order is refused in the other. -/
theorem parse_rearranged {document rearranged : String}
    (hroot : Element.ofDocument document = .ok root)
    (hother : Element.ofDocument rearranged = .ok other) (h : Rearranged root other)
    (hnamed : WellNamed root) :
    (∃ error otherError, parse document {} = .error error ∧
      parse rearranged {} = .error otherError) ∨
    ∃ schema, parse document {} = .ok schema ∧ parse rearranged {} = .ok schema := by
  cases hparse : parse document {} with
  | ok schema => exact .inr ⟨schema, rfl, parse_other hroot hother h hnamed hparse⟩
  | error error =>
    cases hagain : parse rearranged {} with
    | error otherError => exact .inl ⟨error, otherError, rfl, rfl⟩
    | ok schema =>
      have hback := parse_other hother hroot h.symm (h.wellNamed hnamed) hagain
      rw [hparse] at hback
      cases hback

/-- Types that are declared behind their use: a composite in place refers to
another composite, an enumeration is encoded as a declared type, and a constant
is a value of that enumeration. -/
def forward : String :=
  withHeader "<messageSchema package='p' id='7'><types>"
    "<composite name='Order'><composite name='extra'><ref name='leg' type='Leg'/></composite>
      <ref name='side' type='Side'/></composite>
    <type name='Usual' presence='constant' primitiveType='uint8' valueRef='Side.Buy'/>
    <composite name='Leg'><ref name='side' type='Side'/><ref name='usual' type='Usual'/></composite>
    <enum name='Side' encodingType='Tag'><validValue name='Buy'>1</validValue></enum>
    <type name='Tag' primitiveType='uint8'/>
    </types>
    <message name='M' id='1'><field name='order' id='1' type='Order'/></message></messageSchema>"

def backward : String :=
  withHeader "<messageSchema package='p' id='7'><types>
    <type name='Tag' primitiveType='uint8'/>
    <enum name='Side' encodingType='Tag'><validValue name='Buy'>1</validValue></enum>
    <type name='Usual' presence='constant' primitiveType='uint8' valueRef='Side.Buy'/>
    </types><types>
    <composite name='Leg'><ref name='side' type='Side'/><ref name='usual' type='Usual'/></composite>
    <composite name='Order'><composite name='extra'><ref name='leg' type='Leg'/></composite>
      <ref name='side' type='Side'/></composite>"
    "</types>
    <message name='M' id='1'><field name='order' id='1' type='Order'/></message></messageSchema>"

/-- Whether two documents are the same but for the order of their types, and
have a name for each. -/
def isRearranged (document rearranged : String) : Bool :=
  (Element.ofDocument document).toOption.any fun root =>
    (Element.ofDocument rearranged).toOption.any fun other =>
      decide (Rearranged root other ∧ WellNamed root)

theorem exists_of_isRearranged {document rearranged : String}
    (h : isRearranged document rearranged = true) : ∃ root other,
      Element.ofDocument document = .ok root ∧ Element.ofDocument rearranged = .ok other ∧
      Rearranged root other ∧ WellNamed root := by
  unfold isRearranged at h
  cases hroot : Element.ofDocument document with
  | error fault =>
    rw [hroot] at h
    cases h
  | ok root =>
    cases hother : Element.ofDocument rearranged with
    | error fault =>
      rw [hroot, hother] at h
      cases h
    | ok other =>
      rw [hroot, hother] at h
      have hboth : Rearranged root other ∧ WellNamed root := of_decide_eq_true h
      exact ⟨root, other, rfl, rfl, hboth⟩

theorem isRearranged_forward : isRearranged forward backward = true := by
  rw [isRearranged, forward, backward,
    Element.ofDocument_eq (toList_withHeader String.toList_ofList String.toList_ofList),
    Element.ofDocument_eq (toList_withHeader String.toList_ofList String.toList_ofList)]
  decide +kernel

theorem isSome_parse_forward : (parse forward {}).toOption.isSome = true := by
  rw [forward, parse_withHeader String.toList_ofList String.toList_ofList]
  decide +kernel

theorem parse_rearranged_forward : ∃ root other,
    Element.ofDocument forward = .ok root ∧ Element.ofDocument backward = .ok other ∧
    Rearranged root other ∧ WellNamed root ∧
    ∃ schema, parse forward {} = .ok schema ∧ parse backward {} = .ok schema := by
  obtain ⟨root, other, hroot, hother, h, hnamed⟩ := exists_of_isRearranged isRearranged_forward
  refine ⟨root, other, hroot, hother, h, hnamed, ?_⟩
  refine (parse_rearranged hroot hother h hnamed).resolve_left ?_
  rintro ⟨error, _, hparse, -⟩
  have hsome := isSome_parse_forward
  rw [hparse] at hsome
  cases hsome

end Schema
end SimpleBinary
