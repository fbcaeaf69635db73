import SimpleBinary.Proofs.Schema.Chains
import SimpleBinary.Proofs.Schema.Parts
import SimpleBinary.Proofs.Schema.Policy

/-! References from type to type. In a document where no composite is opened in
place inside one of its own name, every reference is held against the names of
all composites around it, no way follows more references than there are names,
and reading ends. -/
namespace SimpleBinary

namespace TypeReader
open Check (Scripted)
open Xml (Element)

def declarations (root : Element) : List Element :=
  (root.childrenNamed "types").flatMap (·.children)

def declared (root : Element) : Table String Element :=
  Table.empty.addAll ((declarations root).filterMap fun element =>
    (element.attribute? "name").map (·, element))

theorem size_declared_lt (root : Element) : (declared root).size < root.weight := by
  have hadded := Table.size_addAll_le (Table.empty (κ := String)) ((declarations root).filterMap
    fun element => (element.attribute? "name").map (·, element))
  have hnamed := List.length_filterMap_le (fun element : Element =>
    (element.attribute? "name").map (·, element)) (declarations root)
  have hchildren := Element.length_flatMap_children_le (root.childrenNamed "types")
  have htypes := Element.weightAll_filter_le (fun child => child.name = "types") root.children
  have hempty : (Table.empty : Table String Element).size = 0 := rfl
  have hroot := root.weight_eq
  unfold declared
  unfold declarations at hnamed hadded ⊢
  unfold Element.childrenNamed at hnamed hadded hchildren ⊢
  omega

theorem weight_le_of_declarations {root declaration : Element}
    (h : declaration ∈ declarations root) : declaration.weight ≤ root.weight := by
  obtain ⟨types, htypes, hdeclaration⟩ := List.mem_flatMap.mp h
  have hinner := Element.weight_lt_of_mem hdeclaration
  have houter := Element.weight_lt_of_mem (List.mem_filter.mp htypes).1
  omega

theorem mem_declarations {root declaration : Element} {key : String}
    (h : (declared root).get? key = some declaration) :
    declaration ∈ declarations root ∧ declaration.attribute? "name" = some key := by
  rcases Table.mem_addAll (Table.mem_of_get? h) with hempty | hmem
  · cases hempty
  · obtain ⟨element, helement, hsome⟩ := List.mem_filterMap.mp hmem
    obtain ⟨name, hname, heq⟩ := Option.map_eq_some_iff.mp hsome
    cases heq
    exact ⟨helement, hname⟩

theorem declares (root : Element) (types : Table String DataType) :
    Declares ⟨declared root, types⟩ root.weight :=
  ⟨fun h => (mem_declarations h).2, fun h => weight_le_of_declarations (mem_declarations h).1⟩

/-- Declarations read one after the other, each with the types of those before
it. -/
def readBy (read : Known → Element → Check (Option DataType)) (root : Element)
    (elements : List Element) (types : Table String DataType) : Check (Table String DataType) :=
  elements.foldlM (fun types element => do
    (← read ⟨declared root, types⟩ element).elim (pure types) (addType types)) types

/-- With the open names in the state. -/
def byFuel (fuel : Nat) (known : Known) (element : Element) : Check (Option DataType) :=
  (readType known fuel element).run' []

/-- With the open names handed down, following at most so many references on
one way. -/
def byChain (beyond : Check (Option DataType)) (references : Nat) (known : Known)
    (element : Element) : Check (Option DataType) :=
  readWithin known beyond (follow known beyond references) [] element

theorem foldl_declared {step : Table String Element → Element → Table String Element}
    (hnamed : ∀ table element name, element.attribute? "name" = some name →
      step table element = table.insert name element)
    (hunnamed : ∀ table element, element.attribute? "name" = none → step table element = table)
    (table : Table String Element) (elements : List Element) :
    elements.foldl step table = table.addAll (elements.filterMap fun element =>
      (element.attribute? "name").map (·, element)) := by
  induction elements generalizing table with
  | nil => rfl
  | cons element rest ih =>
    rw [List.foldl_cons, List.filterMap_cons, ih]
    cases h : element.attribute? "name" with
    | none => simp only [hunnamed table element h, Option.map_none]
    | some name =>
      simp only [hnamed table element name h, Option.map_some, Table.addAll, List.foldl_cons]

theorem readAll_eq (root : Element) :
    readAll root = readBy (byFuel (depth root)) root (declarations root) Schema.builtInTypes := by
  unfold readAll
  dsimp only
  rw [foldl_declared]
  · refine congrArg (fun step => List.foldlM step _ _)
      (funext fun types => funext fun element => ?_)
    refine bind_congr fun type => ?_
    cases type with
    | none => rfl
    | some type => rfl
  · intro table element name h
    simp only [h]
  · intro table element h
    simp only [h]

/-- The types that declarations can leave for those behind them. -/
def Leaves (root : Element) (before : List Element) (types : Table String DataType) : Prop :=
  ∃ log after, (readBy (byFuel (depth root)) root before Schema.builtInTypes).run log =
    (.ok types, after)

/-- No declaration of a document is shadowed when its turn comes. -/
def UnshadowedIn (root : Element) : Prop :=
  ∀ ⦃before declaration after types⦄, declarations root = before ++ declaration :: after →
    Leaves root before types → Unshadowed ⟨declared root, types⟩ [] declaration

theorem depth_le (root : Element) : ((declared root).size + 1) * root.weight ≤ depth root := by
  have hsize := size_declared_lt root
  calc ((declared root).size + 1) * root.weight
      ≤ root.weight * root.weight := Nat.mul_le_mul_right _ hsize
    _ ≤ depth root := by
      rw [depth, Nat.shiftLeft_eq]
      exact Nat.mul_le_mul_left _ (Nat.le_of_lt Nat.lt_two_pow_self)

theorem spare_le_length (keys names : List String) : spare keys names ≤ keys.length :=
  List.countP_le_length

theorem byFuel_eq_byChain {root declaration : Element} {types : Table String DataType}
    (hmem : declaration ∈ declarations root)
    (hclear : Unshadowed ⟨declared root, types⟩ [] declaration) {fuel : Nat}
    (hfuel : ((declared root).size + 1) * root.weight ≤ fuel) (beyond : Check (Option DataType)) :
    byFuel fuel ⟨declared root, types⟩ declaration =
      byChain beyond (declared root).size ⟨declared root, types⟩ declaration := by
  have hweight := weight_le_of_declarations hmem
  have hpos := root.weight_pos
  have hspare : ∀ name, spare (declared root).keys [name] ≤ (declared root).size := by
    intro name
    refine Nat.le_trans (spare_le_length _ _) (Nat.le_of_eq ?_)
    exact List.length_map _
  rw [Nat.succ_mul] at hfuel
  have henough : Enough ⟨declared root, types⟩ root.weight fuel (declared root).size []
      declaration := by
    refine ⟨by omega, fun {name} _ => ?_, fun {name} _ => hspare name⟩
    have := Nat.mul_le_mul_right root.weight (hspare name)
    dsimp only
    omega
  exact (stays_readType (declares root types) henough hclear fun _ _ _ => List.not_mem_nil).run'

/-- One declaration after the other: as long as the readings agree, they leave
the same types for the declarations behind. -/
theorem readBy_eq {root : Element} (hclear : UnshadowedIn root) {fuel : Nat}
    (hfuel : ((declared root).size + 1) * root.weight ≤ fuel) (beyond : Check (Option DataType)) :
    readBy (byFuel fuel) root (declarations root) Schema.builtInTypes =
      readBy (byChain beyond (declared root).size) root (declarations root)
        Schema.builtInTypes := by
  have hrun : ∀ after before types start log, declarations root = before ++ after →
      (readBy (byFuel (depth root)) root before Schema.builtInTypes).run start = (.ok types, log) →
      (readBy (byFuel fuel) root after types).run log =
        (readBy (byChain beyond (declared root).size) root after types).run log := by
    intro after
    induction after with
    | nil => exact fun _ _ _ _ _ _ => rfl
    | cons declaration after ih =>
      intro before types start log hsplit hbefore
      have hmem : declaration ∈ declarations root := by
        rw [hsplit]
        exact List.mem_append_right before List.mem_cons_self
      have hunshadowed := hclear hsplit ⟨start, log, hbefore⟩
      have hsame := byFuel_eq_byChain hmem hunshadowed hfuel beyond
      have hdeep := byFuel_eq_byChain hmem hunshadowed (depth_le root) beyond
      unfold readBy at ih hbefore ⊢
      rw [List.foldlM_cons, List.foldlM_cons, hsame]
      rcases hstep : (do
        (← byChain beyond (declared root).size ⟨declared root, types⟩ declaration).elim
          (pure types) (addType types) : Check _).run log with ⟨error | next, between⟩
      · rw [Check.run_bind_error hstep, Check.run_bind_error hstep]
      · rw [Check.run_bind_ok hstep, Check.run_bind_ok hstep]
        refine ih (before ++ [declaration]) next start between (by simp [hsplit]) ?_
        rw [List.foldlM_append, Check.run_bind_ok hbefore, List.foldlM_cons, hdeep,
          Check.run_bind_ok hstep]
        rfl
  funext log
  exact hrun (declarations root) [] Schema.builtInTypes log log rfl rfl

theorem follows_handed {read : List String → Element → Check (Option DataType)}
    (h : ∀ names element, Scripted (read names element)) (element : Element) :
    Follows (handed read element) :=
  fun names => .bind (h names element) fun _ => .pure _

theorem follows_readType_of_ne {known : Known} {element : Element}
    (hkind : element.name ≠ "composite") : Follows (readType known 1 element) := by
  unfold readType
  split
  · exact .lift (scripted_readEncoded known element)
  · next h => exact absurd h hkind
  · exact .lift (scripted_readEnum known element)
  · exact .lift (scripted_readSet known element)
  · exact .pure _

section
variable {known : Known} {beyond : Check (Option DataType)}
  {follow : List String → Element → Check (Option DataType)}

mutual

/-- By recursion on the element: the members of a composite are its children. -/
theorem scripted_readWithin (hbeyond : Scripted beyond)
    (hfollow : ∀ names element, Scripted (follow names element)) :
    ∀ (element : Element) (chain : List String),
      Scripted (readWithin known beyond follow chain element)
  | ⟨kind, attributes, text, children⟩, chain => by
    unfold readWithin
    dsimp only
    split
    · refine .bind (Element.scripted_required _ "name") fun name => ?_
      refine .bind (Element.scripted_presence? _) fun presence => .ite hbeyond ?_
      refine .bind (scripted_readMembers hbeyond hfollow children _ name []) fun members => ?_
      refine .bind (scripted_memberOffsets name members 0) fun _ => ?_
      exact .bind (scripted_typeInfo _ name _) fun _ => .pure _
    · next hkind => exact .map _ (follows_readType_of_ne hkind chain)

theorem scripted_readMembers (hbeyond : Scripted beyond)
    (hfollow : ∀ names element, Scripted (follow names element)) :
    ∀ (children : List Element) (chain : List String) (composite : String)
      (members : List DataType),
      Scripted (readMembers known beyond follow chain composite members children)
  | [], _, _, _ => by
    unfold readMembers
    exact .pure _
  | child :: rest, chain, composite, members => by
    unfold readMembers
    refine .bind (.map _ ?_) fun members => ?_
    · refine follows_addMember (follows_handed fun names element => ?_) composite members child _
      exact .ite (hfollow names element) (scripted_readWithin hbeyond hfollow child names)
    · exact scripted_readMembers hbeyond hfollow rest chain composite members

end

end

theorem scripted_follow {known : Known} {beyond : Check (Option DataType)}
    (hbeyond : Scripted beyond) (references : Nat) (chain : List String) (element : Element) :
    Scripted (follow known beyond references chain element) := by
  induction references generalizing chain element with
  | zero => exact hbeyond
  | succ references ih =>
    unfold follow
    exact scripted_readWithin hbeyond ih element chain

theorem scripted_readBy {beyond : Check (Option DataType)} (hbeyond : Scripted beyond)
    (references : Nat) (root : Element) (elements : List Element)
    (types : Table String DataType) :
    Scripted (readBy (byChain beyond references) root elements types) := by
  refine .foldlM (fun types element => ?_) _ _
  refine .bind ?_ fun type => ?_
  · exact scripted_readWithin hbeyond (scripted_follow hbeyond references) element []
  · cases type with
    | none => exact .pure types
    | some type => exact .guard (.warning _) (.pure _)

end TypeReader

namespace Schema
open TypeReader
open Xml (Element)

/-- Reading the types of a document without shadowing is reading them with the
names of the open composites handed down. No composite is entered inside one
of its own name and no way follows more references than there are names, since
whatever were done `beyond` makes no difference; what depth is allowed makes
none either, and reading ends. -/
theorem references_end {document : String}
    (hclear : ∀ root, Element.ofDocument document = .ok root → UnshadowedIn root) :
    (∀ root, Element.ofDocument document = .ok root →
      (∀ beyond, readAll root =
        readBy (byChain beyond (declared root).size) root (declarations root) builtInTypes) ∧
      ∀ fuel, ((declared root).size + 1) * root.weight ≤ fuel →
        readAll root = readBy (byFuel fuel) root (declarations root) builtInTypes) ∧
    (∀ known read reference chain name typeName, reference.attribute? "name" = some name →
      reference.attribute? "type" = some typeName → typeName ∈ chain →
      (readRef known read reference).run' chain = do
        Check.error (.recursiveReference name typeName)
        return none) ∧
    ∀ policy, parse document policy ≠ .error .endlessReferences := by
  have hchain : ∀ root, Element.ofDocument document = .ok root → ∀ beyond, readAll root =
      readBy (byChain beyond (declared root).size) root (declarations root) builtInTypes := by
    intro root hroot beyond
    rw [readAll_eq]
    exact readBy_eq (hclear root hroot) (depth_le root) beyond
  refine ⟨fun root hroot => ⟨hchain root hroot, fun fuel hfuel => ?_⟩, ?_, fun policy => ?_⟩
  · rw [hchain root hroot (pure none)]
    exact (readBy_eq (hclear root hroot) hfuel (pure none)).symm
  · intro known read reference chain name typeName hname htype hopen
    exact (stays_readRef_of_mem hname htype hopen).run'
  · have htypes : ∀ root, Element.ofDocument document = .ok root →
        Check.Scripted (readAll root) := by
      intro root hroot
      rw [hchain root hroot (pure none)]
      exact scripted_readBy (.pure none) _ root _ _
    obtain ⟨script, hscript, hends⟩ := scripted_read_of_types htypes
    unfold parse readLogged
    rw [hscript]
    exact Check.Script.run_ne_endless (hends rfl) policy []

end Schema

namespace TypeReader
open Xml (Element)

/-- Follows every way inside an element, so far as the fuel goes. -/
def isUnshadowed (known : Known) : Nat → List String → Element → Bool
  | 0, _, _ => false
  | fuel + 1, chain, element =>
    element.name ≠ "composite" || (element.attribute? "name").all fun name =>
      element.children.all fun child =>
        if child.name = "ref" then
          (child.attribute? "type").all fun typeName =>
            typeName ∈ name :: chain || (known.types.get? typeName).isSome ||
              (known.declared.get? typeName).all (isUnshadowed known fuel (name :: chain))
        else
          (child.name ≠ "composite" ||
            (child.attribute? "name").all fun inner => inner ∉ name :: chain) &&
          isUnshadowed known fuel (name :: chain) child

section
variable {known : Known} {fuel : Nat} {chain inner : List String} {element last : Element}

theorem isUnshadowed_child (h : isUnshadowed known fuel chain element = true)
    (hkind : element.name = "composite") {name : String}
    (hname : element.attribute? "name" = some name) {child : Element}
    (hchild : child ∈ element.children) (hplain : child.name ≠ "ref") :
    (child.name = "composite" → ∀ childName, child.attribute? "name" = some childName →
      childName ∉ name :: chain) ∧
    ∃ fuel, isUnshadowed known fuel (name :: chain) child = true := by
  cases fuel with
  | zero => cases h
  | succ fuel =>
    simp only [isUnshadowed, hkind, hname, ne_eq, not_true_eq_false, decide_false,
      Bool.false_or, Option.all_some, List.all_eq_true] at h
    have hthis := h child hchild
    rw [if_neg hplain, Bool.and_eq_true] at hthis
    refine ⟨fun hinner childName hchildName => ?_, fuel, hthis.2⟩
    simpa [hinner, hchildName] using hthis.1

theorem isUnshadowed_declaration (h : isUnshadowed known fuel chain element = true)
    (hkind : element.name = "composite") {name : String}
    (hname : element.attribute? "name" = some name) {child declaration : Element}
    (hchild : child ∈ element.children) (href : child.name = "ref")
    (hto : Refers known (name :: chain) child declaration) :
    ∃ fuel, isUnshadowed known fuel (name :: chain) declaration = true := by
  cases fuel with
  | zero => cases h
  | succ fuel =>
    obtain ⟨typeName, htype, hnew, hknown, hdeclared⟩ := hto
    simp only [isUnshadowed, hkind, hname, ne_eq, not_true_eq_false, decide_false,
      Bool.false_or, Option.all_some, List.all_eq_true] at h
    have hthis := h child hchild
    rw [if_pos href, htype, Option.all_some, hknown, hdeclared] at hthis
    exact ⟨fuel, by simpa [hnew] using hthis⟩

theorem isUnshadowed_of_reaches (h : Reaches known chain element inner last)
    (hclear : isUnshadowed known fuel chain element = true) :
    ∃ fuel, isUnshadowed known fuel inner last = true := by
  induction h generalizing fuel with
  | here chain element => exact ⟨fuel, hclear⟩
  | inside hkind hname hchild hplain _ ih =>
    obtain ⟨-, fuel, hnext⟩ := isUnshadowed_child hclear hkind hname hchild hplain
    exact ih hnext
  | follow hkind hname hchild href hto _ ih =>
    obtain ⟨fuel, hnext⟩ := isUnshadowed_declaration hclear hkind hname hchild href hto
    exact ih hnext

theorem unshadowed_of_check (h : isUnshadowed known fuel chain element = true) :
    Unshadowed known chain element := by
  intro inner outer name child childName hway hkind hname hchild hinner hchildName
  obtain ⟨fuel, hlast⟩ := isUnshadowed_of_reaches hway h
  have hplain : child.name ≠ "ref" := by
    rw [hinner]
    decide
  exact (isUnshadowed_child hlast hkind hname hchild hplain).1 hinner childName hchildName

end

/-- The more types are known, the fewer references are followed. -/
theorem Reaches.of_known {declared : Table String Element} {types : Table String DataType}
    {chain inner : List String} {element last : Element}
    (h : Reaches ⟨declared, types⟩ chain element inner last) :
    Reaches ⟨declared, .empty⟩ chain element inner last := by
  induction h with
  | here chain element => exact .here chain element
  | inside hkind hname hchild hplain _ ih => exact .inside hkind hname hchild hplain ih
  | follow hkind hname hchild href hto _ ih =>
    obtain ⟨typeName, htype, hnew, -, hdeclared⟩ := hto
    exact .follow hkind hname hchild href ⟨typeName, htype, hnew, rfl, hdeclared⟩ ih

/-- Whether no declaration is shadowed, even if no type were known. -/
def isUnshadowedIn (root : Element) : Bool :=
  (declarations root).all (isUnshadowed ⟨declared root, .empty⟩ root.weight [])

theorem unshadowedIn_of_check {root : Element} (h : isUnshadowedIn root = true) :
    UnshadowedIn root := by
  intro before declaration after types hsplit _ inner outer name child childName hway
  have hmem : declaration ∈ declarations root := by
    rw [hsplit]
    exact List.mem_append_right before List.mem_cons_self
  exact unshadowed_of_check (List.all_eq_true.mp h declaration hmem) hway.of_known

end TypeReader

namespace Schema
open TypeReader
open Xml (Element)

/-- Three composites that refer to one another and to themselves, forward and
back, one of them from inside a composite of its own. -/
def entangled : String :=
  "<messageSchema package='p' id='7'><types><composite name='A'><composite name='inner'>
    <ref name='a' type='A'/></composite><ref name='b' type='B'/></composite><composite name='B'>
    <type name='t' primitiveType='uint8'/><ref name='c' type='C'/></composite><composite name='C'>
    <ref name='back' type='A'/><ref name='own' type='C'/></composite></types></messageSchema>"

theorem isUnshadowedIn_entangled : (Element.ofDocument entangled).toOption.map
    (fun root => (isUnshadowedIn root, (declared root).size, root.weight)) =
      some (true, 3, 12) := by
  rw [entangled, Element.ofDocument_eq String.toList_ofList]
  decide +kernel

theorem references_end_entangled : ∃ root, Element.ofDocument entangled = .ok root ∧
    (∀ beyond, readAll root = readBy (byChain beyond 3) root (declarations root) builtInTypes) ∧
    (∀ fuel, 48 ≤ fuel →
      readAll root = readBy (byFuel fuel) root (declarations root) builtInTypes) ∧
    ∀ policy, parse entangled policy ≠ .error .endlessReferences := by
  obtain ⟨root, hroot, hview⟩ := exists_of_toOption isUnshadowedIn_entangled
  obtain ⟨hcheck, hview⟩ := Prod.mk.inj hview
  obtain ⟨hsize, hweight⟩ := Prod.mk.inj hview
  have hclear : ∀ other, Element.ofDocument entangled = .ok other → UnshadowedIn other := by
    intro other hother
    cases hroot.symm.trans hother
    exact unshadowedIn_of_check hcheck
  obtain ⟨htypes, -, hparse⟩ := references_end hclear
  obtain ⟨hchain, hfuel⟩ := htypes root hroot
  rw [hsize] at hchain hfuel
  rw [hweight] at hfuel
  exact ⟨root, hroot, hchain, hfuel, hparse⟩

/-- A composite inside one of its own name that goes on to refer to another. -/
def reopened : String :=
  withHeader "<messageSchema package='p' id='7'><types>"
    "<composite name='A'><composite name='A'><type name='t' primitiveType='uint8'/>
    </composite><ref name='b' type='B'/></composite><composite name='B'><ref name='a' type='A'/>
    </composite></types></messageSchema>"

/-- A composite inside one of its own name that goes on to refer to itself. -/
def endless : String :=
  "<messageSchema package='p' id='7'><types><composite name='A'><composite name='A'/>
    <ref name='a' type='A'/></composite></types></messageSchema>"

theorem diagnostics_reopened : (readLogged reopened {}).2.diagnostics =
    [⟨.error, .recursiveReference "b" "B"⟩] := by
  rw [reopened, readLogged_eq (toList_withHeader String.toList_ofList String.toList_ofList)]
  decide +kernel

def isEndless (result : Except Error Schema) : Bool :=
  ((result.map fun _ => false).tryCatch fun error =>
    .ok (error = .endlessReferences)).toOption.getD false

theorem eq_error_of_isEndless {result : Except Error Schema} (h : isEndless result = true) :
    result = .error .endlessReferences := by
  cases result with
  | error error => exact congrArg Except.error (of_decide_eq_true h)
  | ok schema => cases h

theorem isEndless_endless : isEndless (parse endless {}) = true := by
  rw [endless, parse_eq String.toList_ofList]
  decide +kernel

/-- Behind a composite inside one of its own name, that name is not open any
more: a reference to it from inside goes unnoticed, and may go on for ever. -/
theorem unnoticed_reopened : ⟨.error, .recursiveReference "a" "A"⟩ ∉
      (readLogged reopened {}).2.diagnostics ∧
    ⟨.error, .recursiveReference "b" "B"⟩ ∈ (readLogged reopened {}).2.diagnostics ∧
    parse endless {} = .error .endlessReferences := by
  rw [diagnostics_reopened]
  exact ⟨by decide, by decide, eq_error_of_isEndless isEndless_endless⟩

end Schema
end SimpleBinary
