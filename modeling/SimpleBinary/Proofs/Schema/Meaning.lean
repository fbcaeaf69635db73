import SimpleBinary.Proofs.Schema.Passing
import SimpleBinary.Proofs.Schema.References

/-! What types mean. A reference is a copy of the type that it names, whether
that has been read before or is read on the way; so a declaration means the
same wherever it stands, and what it means does not depend on which composites
are open, nor on how deep references may go. -/
namespace SimpleBinary

theorem Xml.Element.passes_required {element : Xml.Element} {key value : String}
    (h : element.attribute? key = some value) : Check.Passes (element.required key) value := by
  unfold required
  rw [h]
  exact .pure value

namespace TypeReader
open Check (Passes Scripted Yields)
open Xml (Element)

def copied (reference : Element) (name : String) (type : DataType) : Check DataType := do
  Check.name name
  let offset ← reference.word? "offset"
  let sinceVersion ← reference.word "sinceVersion" type.info.sinceVersion
  return type.withInfo { type.info with name, offset, sinceVersion }

def composed (element : Element) (name : String) (presence : Presence)
    (members : List DataType) : Check DataType := do
  memberOffsets name 0 members
  let info ← typeInfo element name presence
  return .composite info members

def readLeaf (declared : Table String Element) (element : Element) : Check (Option DataType) :=
  if element.name = "type" then readEncoded ⟨declared, .empty⟩ element
  else if element.name = "enum" then readEnum ⟨declared, .empty⟩ element
  else if element.name = "set" then readSet ⟨declared, .empty⟩ element
  else pure none

def joined (members : List DataType) (member : Option DataType) : Option (List DataType) :=
  member.elim (some members) fun member =>
    if members.any (·.name = member.name) then none else some (members ++ [member])

section
variable (declared : Table String Element) (refer : String → Option DataType)

def copyOf (reference : Element) : Option DataType := do
  let name ← reference.attribute? "name"
  let typeName ← reference.attribute? "type"
  let type ← refer typeName
  (copied reference name type).result?

mutual

/-- The type that an element declares, if there is no error in it. -/
def meaning : Element → Option (Option DataType)
  | ⟨kind, attributes, text, children⟩ =>
    let element : Element := ⟨kind, attributes, text, children⟩
    if kind = "composite" then do
      let name ← element.attribute? "name"
      let presence ← element.presence?.result?
      let members ← meanings [] children
      let type ← (composed element name (presence.getD .required) members).result?
      return some type
    else (readLeaf declared element).result?

def meanings (members : List DataType) : List Element → Option (List DataType)
  | [] => some members
  | child :: rest =>
    (if child.name = "ref" then (copyOf refer child).map some else meaning child).bind fun member =>
      (joined members member).bind fun members => meanings members rest

end

end

/-- What names stand for, if no more than so many references are followed. -/
def refer (declared : Table String Element) : Nat → String → Option DataType
  | 0, name => Schema.builtInTypes.get? name
  | references + 1, name =>
    (Schema.builtInTypes.get? name).or
      ((declared.get? name).bind fun declaration =>
        (meaning declared (refer declared references) declaration).join)

section
variable {declared : Table String Element} {types : Table String DataType} {element : Element}
  {table other : String → Option DataType}

theorem meaning_composite (hkind : element.name = "composite") :
    meaning declared table element = (do
      let name ← element.attribute? "name"
      let presence ← element.presence?.result?
      let members ← meanings declared table [] element.children
      let type ← (composed element name (presence.getD .required) members).result?
      return some type) := by
  cases element
  rw [meaning, if_pos hkind]

theorem meaning_leaf (hkind : element.name ≠ "composite") :
    meaning declared table element = (readLeaf declared element).result? := by
  cases element
  rw [meaning, if_neg hkind]

def Extends (table other : String → Option DataType) : Prop :=
  ∀ name type, table name = some type → other name = some type

theorem Extends.eq_none (h : Extends table other) {name : String} (hnone : other name = none) :
    table name = none := by
  cases hsome : table name with
  | none => rfl
  | some type =>
    rw [h name type hsome] at hnone
    cases hnone

theorem copyOf_mono (h : Extends table other) {type : DataType}
    (hcopy : copyOf table element = some type) : copyOf other element = some type := by
  simp only [copyOf, Option.bind_eq_bind, Option.bind_eq_some_iff] at hcopy ⊢
  obtain ⟨name, hname, typeName, htype, type, hrefer, hcopied⟩ := hcopy
  exact ⟨name, hname, typeName, htype, type, h _ _ hrefer, hcopied⟩

mutual

theorem meaning_mono (h : Extends table other) : ∀ (element : Element) {type : Option DataType},
    meaning declared table element = some type → meaning declared other element = some type
  | ⟨kind, attributes, text, children⟩, type, hmeaning => by
    rw [meaning] at hmeaning ⊢
    split at hmeaning
    · next hkind =>
      rw [if_pos hkind]
      simp only [Option.bind_eq_bind, Option.bind_eq_some_iff] at hmeaning ⊢
      obtain ⟨name, hname, presence, hpresence, members, hmembers, hrest⟩ := hmeaning
      exact ⟨name, hname, presence, hpresence, members, meanings_mono h children hmembers, hrest⟩
    · next hkind =>
      rw [if_neg hkind]
      exact hmeaning

theorem meanings_mono (h : Extends table other) : ∀ (children : List Element)
    {members result : List DataType}, meanings declared table members children = some result →
    meanings declared other members children = some result
  | [], _, _, hmeanings => by
    rw [meanings] at hmeanings ⊢
    exact hmeanings
  | child :: rest, members, result, hmeanings => by
    rw [meanings] at hmeanings ⊢
    simp only [Option.bind_eq_some_iff] at hmeanings ⊢
    obtain ⟨member, hmember, joined, hjoined, hrest⟩ := hmeanings
    refine ⟨member, ?_, joined, hjoined, meanings_mono h rest hrest⟩
    split at hmember
    · next href =>
      obtain ⟨copy, hcopy, rfl⟩ := Option.map_eq_some_iff.mp hmember
      rw [if_pos href, copyOf_mono h hcopy]
      rfl
    · next hplain =>
      rw [if_neg hplain]
      exact meaning_mono h child hmember

end

theorem refer_succ (references : Nat) :
    Extends (refer declared references) (refer declared (references + 1)) := by
  induction references with
  | zero =>
    intro name type h
    rw [refer, Option.or_eq_some_iff]
    exact .inl h
  | succ references ih =>
    intro name type h
    rw [refer, Option.or_eq_some_iff] at h ⊢
    rcases h with h | ⟨hnone, h⟩
    · exact .inl h
    · refine .inr ⟨hnone, ?_⟩
      simp only [Option.bind_eq_some_iff, Option.join_eq_some_iff] at h ⊢
      obtain ⟨declaration, hdeclaration, hmeaning⟩ := h
      exact ⟨declaration, hdeclaration, meaning_mono ih declaration hmeaning⟩

theorem refer_mono {fewer more : Nat} (h : fewer ≤ more) :
    Extends (refer declared fewer) (refer declared more) := by
  induction h with
  | refl => exact fun _ _ h => h
  | step _ ih => exact fun name type h => refer_succ _ name type (ih name type h)

theorem refer_of_meaning {name : String} {type : DataType} {references : Nat}
    (hdeclared : declared.get? name = some element)
    (hbuiltIn : Schema.builtInTypes.get? name = none)
    (h : meaning declared (refer declared references) element = some (some type)) :
    refer declared (references + 1) name = some type := by
  rw [refer, hbuiltIn, hdeclared, Option.none_or, Option.bind_some, h]
  rfl

theorem meaning_unique {fewer more : Nat} {type found : Option DataType}
    (h : meaning declared (refer declared fewer) element = some type)
    (hfound : meaning declared (refer declared more) element = some found) : type = found := by
  have hfirst := meaning_mono (refer_mono (Nat.le_max_left fewer more)) element h
  have hsecond := meaning_mono (refer_mono (Nat.le_max_right fewer more)) element hfound
  exact Option.some.inj (hfirst.symm.trans hsecond)

theorem refer_unique {fewer more : Nat} {name : String} {type found : DataType}
    (h : refer declared fewer name = some type) (hfound : refer declared more name = some found) :
    type = found := by
  have hfirst := refer_mono (Nat.le_max_left fewer more) name type h
  have hsecond := refer_mono (Nat.le_max_right fewer more) name found hfound
  exact Option.some.inj (hfirst.symm.trans hsecond)

end

theorem copy_eq (element : Element) (name : String) (type : DataType) :
    (do
      Check.name name
      let offset ← element.word? "offset"
      let sinceVersion ← element.word "sinceVersion" type.info.sinceVersion
      return some (type.withInfo { type.info with name, offset, sinceVersion }) :
        Reading (Option DataType)) =
    (liftM (copied element name type) >>= fun copy => pure (some copy)) := by
  simp only [copied, liftM_bind, liftM_pure, bind_assoc, pure_bind]

theorem compose_eq (element : Element) (name : String) (presence : Presence)
    (members : List DataType) :
    (do
      memberOffsets name 0 members
      let info ← typeInfo element name presence
      return some (.composite info members) : Reading (Option DataType)) =
    (liftM (composed element name presence members) >>= fun type => pure (some type)) := by
  simp only [composed, liftM_bind, liftM_pure, bind_assoc, pure_bind]

theorem readType_of_ne {declared : Table String Element} {types : Table String DataType}
    {element : Element} (hkind : element.name ≠ "composite") (fuel : Nat) :
    readType ⟨declared, types⟩ (fuel + 1) element = liftM (readLeaf declared element) := by
  unfold readType readLeaf
  split
  · next htype =>
    rw [if_pos htype]
    rfl
  · next hcomposite => exact absurd hcomposite hkind
  · next henum =>
    rw [if_neg (by rw [henum]; decide), if_pos henum]
    rfl
  · next hset =>
    rw [if_neg (by rw [hset]; decide), if_neg (by rw [hset]; decide), if_pos hset]
    rfl
  · next htype _ henum hset =>
    rw [if_neg htype, if_neg henum, if_neg hset]
    rfl

theorem scripted_copied (element : Element) (name : String) (type : DataType) :
    Scripted (copied element name type) := by
  refine .bind (Check.scripted_name name) fun _ => ?_
  refine .bind (element.scripted_word? "offset") fun _ => ?_
  exact .bind (element.scripted_word "sinceVersion" type.info.sinceVersion) fun _ => .pure _

theorem scripted_composed (element : Element) (name : String) (presence : Presence)
    (members : List DataType) : Scripted (composed element name presence members) := by
  refine .bind (scripted_memberOffsets name members 0) fun _ => ?_
  exact .bind (scripted_typeInfo element name presence) fun _ => .pure _

theorem scripted_readLeaf (declared : Table String Element) (element : Element) :
    Scripted (readLeaf declared element) :=
  .ite (scripted_readEncoded _ element)
    (.ite (scripted_readEnum _ element) (.ite (scripted_readSet _ element) (.pure none)))

section
variable {known : Known} {read : Element → Reading (Option DataType)}
  {table : String → Option DataType} {element : Element}

theorem gives_copyOf (htypes : Extends known.types.get? table)
    (hread : ∀ typeName declaration, known.types.get? typeName = none →
      known.declared.get? typeName = some declaration →
      Gives (read declaration) fun type => ∀ t ∈ type, table typeName = some t) :
    Gives (readRef known read element) fun type =>
      (copyOf table element).map some = some type := by
  unfold readRef
  refine .bind (.lift (element.yields_required "name")) fun name => ?_
  refine .bind (.lift (element.yields_required "type")) fun typeName => ?_
  refine .bind .get fun names => ?_
  have hcopy : ∀ type, Gives (do
      Check.name name
      let offset ← element.word? "offset"
      let sinceVersion ← element.word "sinceVersion" type.info.sinceVersion
      return some (type.withInfo { type.info with name, offset, sinceVersion }) :
        Reading (Option DataType)) fun result => table typeName = some type → True →
      element.attribute? "type" = some typeName → element.attribute? "name" = some name →
      (copyOf table element).map some = some result := by
    intro type
    rw [copy_eq]
    refine .bind (.lift (scripted_copied element name type).yields_result?) fun copy => .pure ?_
    intro hcopied htype _ htypeName hname
    simp [copyOf, hname, htypeName, htype, hcopied]
  dsimp only
  split
  · exact gives_error _ _ _
  · cases hknown : known.types.get? typeName with
    | some type => exact (hcopy type).mono fun _ h => h (htypes typeName type hknown)
    | none =>
      cases hdeclared : known.declared.get? typeName with
      | none => exact gives_error _ _ _
      | some declaration =>
        refine .bind (hread typeName declaration hknown hdeclared) fun referred => ?_
        cases referred with
        | none => exact gives_error _ _ _
        | some type => exact (hcopy type).mono fun _ h hreferred => h (hreferred type rfl)

theorem gives_joined {members : List DataType} {composite : String}
    (hplain : element.name ≠ "ref" →
      Gives (read element) fun type => meaning known.declared table element = some type)
    (href : element.name = "ref" → Gives (readRef known read element) fun type =>
      (copyOf table element).map some = some type) :
    Gives (addMember known read composite members element) fun result =>
      ((if element.name = "ref" then (copyOf table element).map some
        else meaning known.declared table element).bind (joined members)) = some result := by
  have hjoin : ∀ (found : Option (Option DataType)) (member : Option DataType),
      Gives (member.elim (pure members) fun member =>
        if members.any (·.name = member.name) then do
          Check.error (.duplicateMember composite member.name)
          return members
        else return members ++ [member] : Reading (List DataType)) fun result =>
      found = some member → found.bind (joined members) = some result := by
    intro found member
    cases member with
    | none =>
      refine .pure ?_
      rintro rfl
      rfl
    | some member =>
      simp only [Option.elim_some]
      split
      · exact gives_error _ _ _
      · next hnew =>
        refine .pure ?_
        rintro rfl
        simp only [Option.bind_some, joined, Option.elim_some, if_neg hnew]
  unfold addMember
  dsimp only
  split
  · next hname =>
    refine .bind (href hname) fun member => ?_
    cases member with
    | none => exact hjoin _ none
    | some member => exact hjoin _ (some member)
  · next hname =>
    refine .bind (hplain hname) fun member => ?_
    cases member with
    | none => exact hjoin _ none
    | some member => exact hjoin _ (some member)

theorem gives_meanings {composite : String} {children : List Element}
    (hplain : ∀ child ∈ children, child.name ≠ "ref" →
      Gives (read child) fun type => meaning known.declared table child = some type)
    (href : ∀ child ∈ children, child.name = "ref" → Gives (readRef known read child) fun type =>
      (copyOf table child).map some = some type) (members : List DataType) :
    Gives (children.foldlM (addMember known read composite) members) fun result =>
      meanings known.declared table members children = some result := by
  induction children generalizing members with
  | nil =>
    refine .pure ?_
    rw [meanings]
  | cons child rest ih =>
    rw [List.foldlM_cons]
    refine .bind (gives_joined (hplain child List.mem_cons_self) (href child List.mem_cons_self))
      fun joined => (ih ?_ ?_ joined).mono fun result hrest hjoined => ?_
    · exact fun other hother => hplain other (List.mem_cons_of_mem _ hother)
    · exact fun other hother => href other (List.mem_cons_of_mem _ hother)
    · obtain ⟨member, hmember, hjoined⟩ := Option.bind_eq_some_iff.mp hjoined
      rw [meanings, hmember, Option.bind_some, hjoined, Option.bind_some, hrest]

theorem gives_composite (hkind : element.name = "composite")
    (hplain : ∀ child ∈ element.children, child.name ≠ "ref" →
      Gives (read child) fun type => meaning known.declared table child = some type)
    (href : ∀ child ∈ element.children, child.name = "ref" →
      Gives (readRef known read child) fun type =>
        (copyOf table child).map some = some type) :
    Gives (readComposite known read element) fun type =>
      meaning known.declared table element = some type := by
  unfold readComposite
  refine .bind (.lift (element.yields_required "name")) fun name => ?_
  refine .bind (.lift element.scripted_presence?.yields_result?) fun presence => ?_
  refine .bind (.modified _) fun _ => ?_
  refine .bind (gives_meanings hplain href []) fun members => ?_
  refine .bind (.modified _) fun _ => ?_
  rw [compose_eq]
  refine .bind (.lift (scripted_composed element name _ members).yields_result?)
    fun type => .pure ?_
  intro hcomposed _ hmembers _ hpresence hname
  simp [meaning_composite hkind, hname, hpresence, hmembers, hcomposed]

end

theorem gives_meaning {declared : Table String Element} {types : Table String DataType}
    {references : Nat} (hbuiltIn : Extends Schema.builtInTypes.get? types.get?)
    (htypes : Extends types.get? (refer declared references)) (fuel : Nat) (element : Element) :
    Gives (readType ⟨declared, types⟩ fuel element) fun type =>
      meaning declared (refer declared (references + fuel)) element = some type := by
  induction fuel generalizing element with
  | zero => exact fun _ => .throw _ _
  | succ fuel ih =>
    by_cases hkind : element.name = "composite"
    · simp only [readType, hkind]
      refine gives_composite hkind (fun child _ _ => ?_) fun child _ _ => ?_
      · exact (ih child).mono fun type h => meaning_mono (refer_succ _) child h
      · refine gives_copyOf ?_ fun typeName declaration hunknown hdeclared => ?_
        · exact fun name type h => refer_mono (by omega) name type (htypes name type h)
        · refine (ih declaration).mono fun type h t ht => ?_
          rw [Option.mem_def.mp ht] at h
          exact refer_of_meaning hdeclared (hbuiltIn.eq_none hunknown) h
    · rw [readType_of_ne hkind, meaning_leaf hkind]
      exact .lift (scripted_readLeaf declared element).yields_result?

section
variable {known : Known} {read : Element → Reading (Option DataType)} {names : List String}
  {table : String → Option DataType} {element : Element}

/-- A reference to a name that is not open finds what the name stands for: a
type that was read before, or one that is read now. -/
theorem reads_copyOf {copy : DataType} (hcopy : copyOf table element = some copy)
    (hfree : ∀ name ∈ names, table name = none)
    (htypes : ∀ typeName type found, table typeName = some type →
      known.types.get? typeName = some found → found = type)
    (hread : ∀ typeName type, table typeName = some type → known.types.get? typeName = none →
      ∃ declaration, known.declared.get? typeName = some declaration ∧
        Reads names (read declaration) (some type)) :
    Reads names (readRef known read element) (some copy) := by
  simp only [copyOf, Option.bind_eq_bind, Option.bind_eq_some_iff] at hcopy
  obtain ⟨name, hname, typeName, htypeName, type, htype, hcopied⟩ := hcopy
  have hclosed : ¬ names.contains typeName = true := by
    intro hopen
    rw [hfree typeName (by simpa using hopen)] at htype
    cases htype
  have hfinish : ∀ left, Reads left (do
      Check.name name
      let offset ← element.word? "offset"
      let sinceVersion ← element.word "sinceVersion" type.info.sinceVersion
      return some (type.withInfo { type.info with name, offset, sinceVersion }) :
        Reading (Option DataType)) (some copy) := by
    intro left
    rw [copy_eq]
    exact .bind_lift ((scripted_copied element name type).passes_iff.mpr hcopied) (.pure _)
  unfold readRef
  refine .bind_lift (Element.passes_required hname) ?_
  refine .bind_lift (Element.passes_required htypeName) ?_
  change Reads names (if names.contains typeName then _ else _) _
  rw [if_neg hclosed]
  cases hknown : known.types.get? typeName with
  | some found =>
    cases htypes typeName type found htype hknown
    exact hfinish names
  | none =>
    obtain ⟨declaration, hdeclared, hdeclaration⟩ := hread typeName type htype hknown
    simp only [hdeclared]
    exact hdeclaration.bind fun left _ => hfinish left

theorem reads_joined {members result : List DataType} {composite : String}
    (hplain : element.name ≠ "ref" → ∀ type, meaning known.declared table element = some type →
      Reads names (read element) type)
    (href : element.name = "ref" → ∀ copy, copyOf table element = some copy →
      Reads names (readRef known read element) (some copy))
    (h : ((if element.name = "ref" then (copyOf table element).map some
      else meaning known.declared table element).bind (joined members)) = some result) :
    Reads names (addMember known read composite members element) result := by
  obtain ⟨member, hmember, hjoined⟩ := Option.bind_eq_some_iff.mp h
  have hjoin : ∀ left, Reads left (member.elim (pure members) fun member =>
      if members.any (·.name = member.name) then do
        Check.error (.duplicateMember composite member.name)
        return members
      else return members ++ [member] : Reading (List DataType)) result := by
    intro left
    cases member with
    | none =>
      cases hjoined
      exact .pure members
    | some member =>
      simp only [joined, Option.elim_some] at hjoined ⊢
      split at hjoined
      · cases hjoined
      · next hnew =>
        cases hjoined
        rw [if_neg hnew]
        exact .pure _
  unfold addMember
  dsimp only
  split at hmember
  · next hname =>
    obtain ⟨copy, hcopy, rfl⟩ := Option.map_eq_some_iff.mp hmember
    rw [if_pos hname]
    exact (href hname copy hcopy).bind fun left _ => hjoin left
  · next hname =>
    rw [if_neg hname]
    refine (hplain hname member hmember).bind fun left _ => ?_
    cases member with
    | none => exact hjoin left
    | some member => exact hjoin left

theorem reads_meanings {composite : String} {children : List Element}
    {members result : List DataType}
    (hplain : ∀ child ∈ children, child.name ≠ "ref" → ∀ left, left ⊆ names →
      ∀ type, meaning known.declared table child = some type → Reads left (read child) type)
    (href : ∀ child ∈ children, child.name = "ref" → ∀ left, left ⊆ names →
      ∀ copy, copyOf table child = some copy → Reads left (readRef known read child) (some copy))
    (h : meanings known.declared table members children = some result) :
    Reads names (children.foldlM (addMember known read composite) members) result := by
  induction children generalizing members names with
  | nil =>
    rw [meanings] at h
    cases h
    exact .pure _
  | cons child rest ih =>
    rw [meanings] at h
    obtain ⟨member, hmember, h⟩ := Option.bind_eq_some_iff.mp h
    obtain ⟨more, hjoined, hrest⟩ := Option.bind_eq_some_iff.mp h
    rw [List.foldlM_cons]
    refine Reads.bind (reads_joined ?_ ?_ (Option.bind_eq_some_iff.mpr ⟨member, hmember, hjoined⟩))
      fun left hleft => ih ?_ ?_ hrest
    · exact fun hname => hplain child List.mem_cons_self hname names fun _ h => h
    · exact fun hname => href child List.mem_cons_self hname names fun _ h => h
    · intro other hother hname less hless
      exact hplain other (List.mem_cons_of_mem _ hother) hname less fun _ h => hleft (hless h)
    · intro other hother hname less hless
      exact href other (List.mem_cons_of_mem _ hother) hname less fun _ h => hleft (hless h)

theorem reads_composite (hkind : element.name = "composite")
    (hplain : ∀ name, element.attribute? "name" = some name → ∀ child ∈ element.children,
      child.name ≠ "ref" → ∀ left, left ⊆ name :: names →
      ∀ type, meaning known.declared table child = some type → Reads left (read child) type)
    (href : ∀ name, element.attribute? "name" = some name → ∀ child ∈ element.children,
      child.name = "ref" → ∀ left, left ⊆ name :: names →
      ∀ copy, copyOf table child = some copy → Reads left (readRef known read child) (some copy))
    {type : Option DataType} (h : meaning known.declared table element = some type) :
    Reads names (readComposite known read element) type := by
  rw [meaning_composite hkind] at h
  simp only [Option.bind_eq_bind, Option.bind_eq_some_iff] at h
  obtain ⟨name, hname, presence, hpresence, members, hmembers, composite, hcomposed, hresult⟩ := h
  cases hresult
  unfold readComposite
  refine .bind_lift (Element.passes_required hname) ?_
  refine .bind_lift (element.scripted_presence?.passes_iff.mpr hpresence) ?_
  refine .opened (reads_meanings (hplain name hname) (href name hname) hmembers) fun left _ => ?_
  rw [compose_eq]
  exact .bind_lift ((scripted_composed element name _ members).passes_iff.mpr hcomposed) (.pure _)

end

mutual

def inlineNames : Element → List String
  | ⟨kind, _, _, children⟩ => if kind = "composite" then inlineNamesIn children else []

def inlineNamesIn : List Element → List String
  | [] => []
  | child :: rest =>
    (if child.name = "composite" then (child.attribute? "name").toList else []) ++
      inlineNames child ++ inlineNamesIn rest

end

theorem mem_inlineNamesIn {child : Element} {children : List Element} (h : child ∈ children)
    {name : String} (hname : child.name = "composite" ∧ child.attribute? "name" = some name ∨
      name ∈ inlineNames child) : name ∈ inlineNamesIn children := by
  induction children with
  | nil => cases h
  | cons first rest ih =>
    rw [inlineNamesIn, List.mem_append, List.mem_append]
    rcases List.mem_cons.mp h with rfl | h
    · rcases hname with ⟨hkind, hname⟩ | hname
      · rw [if_pos hkind, hname]
        exact .inl (.inl List.mem_cons_self)
      · exact .inl (.inr hname)
    · exact .inr (ih h)

theorem inlineNames_composite {element : Element} (hkind : element.name = "composite") :
    inlineNames element = inlineNamesIn element.children := by
  cases element
  rw [inlineNames, if_pos hkind]

section
variable {declared : Table String Element} {name : String}

theorem refer_of_unknown (hdeclared : declared.get? name = none)
    (hbuiltIn : Schema.builtInTypes.get? name = none) (references : Nat) :
    refer declared references name = none := by
  cases references with
  | zero => exact hbuiltIn
  | succ references => rw [refer, hbuiltIn, hdeclared, Option.none_or, Option.bind_none]

/-- The least number of references that a declaration can be read with does not
lead back to it. -/
theorem exists_least {declaration : Element} {type : Option DataType} {references : Nat}
    (hdeclared : declared.get? name = some declaration)
    (hbuiltIn : Schema.builtInTypes.get? name = none)
    (h : meaning declared (refer declared references) declaration = some type) :
    ∃ least, meaning declared (refer declared least) declaration = some type ∧
      refer declared least name = none := by
  induction references with
  | zero => exact ⟨0, h, hbuiltIn⟩
  | succ references ih =>
    cases hfewer : meaning declared (refer declared references) declaration with
    | some other =>
      rw [meaning_mono (refer_succ references) declaration hfewer] at h
      cases h
      exact ih hfewer
    | none =>
      refine ⟨references + 1, h, ?_⟩
      rw [refer, hbuiltIn, hdeclared, Option.none_or, Option.bind_some, hfewer]
      rfl

def standing (declared : Table String Element) (references : Nat) : Nat :=
  declared.keys.countP fun name => (refer declared references name).isSome

theorem lt_of_refer {fewer more : Nat} {type : DataType}
    (hnone : refer declared fewer name = none) (hsome : refer declared more name = some type) :
    fewer < more := by
  rw [← Nat.not_le]
  intro hle
  rw [(refer_mono hle).eq_none hnone] at hsome
  cases hsome

/-- A name that stands for something beside the primitives is declared, and
fewer references lead to it from its declaration than back to it. -/
theorem exists_declaration {references : Nat} {type : DataType}
    (hbuiltIn : Schema.builtInTypes.get? name = none)
    (h : refer declared references name = some type) :
    ∃ declaration least, declared.get? name = some declaration ∧
      meaning declared (refer declared least) declaration = some (some type) ∧
      refer declared least name = none := by
  cases references with
  | zero =>
    rw [refer, hbuiltIn] at h
    cases h
  | succ references =>
    rw [refer, hbuiltIn, Option.none_or, Option.bind_eq_some_iff] at h
    obtain ⟨declaration, hdeclared, hmeaning⟩ := h
    obtain ⟨least, hleast, hnew⟩ :=
      exists_least hdeclared hbuiltIn (Option.join_eq_some_iff.mp hmeaning)
    exact ⟨declaration, least, hdeclared, hleast, hnew⟩

theorem standing_lt {fewer more : Nat} {type : DataType} (hkey : name ∈ declared.keys)
    (hnone : refer declared fewer name = none) (hsome : refer declared more name = some type) :
    standing declared fewer < standing declared more := by
  have hmono : ∀ keys : List String,
      keys.countP (fun name => (refer declared fewer name).isSome) ≤
        keys.countP fun name => (refer declared more name).isSome := by
    refine fun keys => List.countP_mono_left fun key _ hkey => ?_
    obtain ⟨type, htype⟩ := Option.isSome_iff_exists.mp hkey
    rw [refer_mono (Nat.le_of_lt (lt_of_refer hnone hsome)) key type htype]
    rfl
  obtain ⟨before, after, hsplit⟩ := List.append_of_mem hkey
  have hbefore := hmono before
  have hafter := hmono after
  unfold standing
  rw [hsplit]
  simp only [List.countP_append, List.countP_cons, hnone, hsome, Option.isSome_none,
    Option.isSome_some, if_true]
  simp only [Bool.false_eq_true, if_false]
  omega

end

/-- Declarations under their own names, which are not those of primitives and
not those of composites in place. -/
structure Orderly (declared : Table String Element) (width : Nat) : Prop where
  named : ∀ {name declaration}, declared.get? name = some declaration →
    declaration.attribute? "name" = some name
  weight : ∀ {name declaration}, declared.get? name = some declaration →
    declaration.weight ≤ width
  builtIn : ∀ {name declaration}, declared.get? name = some declaration →
    Schema.builtInTypes.get? name = none
  inline : ∀ {name declaration}, declared.get? name = some declaration →
    ∀ inner ∈ inlineNames declaration,
      declared.get? inner = none ∧ Schema.builtInTypes.get? inner = none

/-- What an element means is what is read, whichever types have been read
before, as long as nothing that is open stands for something yet. The induction
is on the fuel; a reference leads to a name that fewer references do not lead to. -/
theorem reads_meaning {declared : Table String Element} {width : Nat}
    (horderly : Orderly declared width) {types : Table String DataType}
    (hbuiltIn : Extends Schema.builtInTypes.get? types.get?)
    (htypes : ∀ name type, types.get? name = some type →
      ∃ references, refer declared references name = some type)
    {fuel references : Nat} {element : Element} {names : List String} {type : Option DataType}
    (hfuel : standing declared references * width + element.weight ≤ fuel)
    (hinline : ∀ name ∈ inlineNames element,
      declared.get? name = none ∧ Schema.builtInTypes.get? name = none)
    (hown : element.name = "composite" → ∀ name, element.attribute? "name" = some name →
      refer declared references name = none)
    (hfree : ∀ name ∈ names, refer declared references name = none)
    (hmeaning : meaning declared (refer declared references) element = some type) :
    Reads names (readType ⟨declared, types⟩ fuel element) type := by
  induction fuel generalizing references element names type with
  | zero =>
    have hpos := element.weight_pos
    omega
  | succ fuel ih =>
    by_cases hkind : element.name = "composite"
    · have hopened : ∀ name, element.attribute? "name" = some name → ∀ left,
          left ⊆ name :: names → ∀ other ∈ left, refer declared references other = none := by
        intro name hname left hleft other hother
        rcases List.mem_cons.mp (hleft hother) with rfl | hother
        · exact hown hkind other hname
        · exact hfree other hother
      simp only [readType, hkind]
      refine reads_composite hkind ?_ ?_ hmeaning
      · intro name hname child hchild _ left hleft type htype
        have hweight := Element.weight_lt_of_mem hchild
        have hinner : ∀ inner, child.name = "composite" ∧ child.attribute? "name" = some inner ∨
            inner ∈ inlineNames child →
            declared.get? inner = none ∧ Schema.builtInTypes.get? inner = none := by
          intro inner h
          refine hinline inner ?_
          rw [inlineNames_composite hkind]
          exact mem_inlineNamesIn hchild h
        refine ih (by omega) (fun inner h => hinner inner (.inr h)) ?_
          (hopened name hname left hleft) htype
        intro hcomposite inner hname
        obtain ⟨hdeclared, hbuilt⟩ := hinner inner (.inl ⟨hcomposite, hname⟩)
        exact refer_of_unknown hdeclared hbuilt references
      · intro name hname child _ _ left hleft copy hcopy
        have hleft := hopened name hname left hleft
        refine reads_copyOf hcopy hleft ?_ fun typeName type htype hunknown => ?_
        · intro typeName type found htype hfound
          obtain ⟨others, hothers⟩ := htypes typeName found hfound
          exact refer_unique hothers htype
        · obtain ⟨declaration, least, hdeclared, hleast, hnew⟩ :=
            exists_declaration (hbuiltIn.eq_none hunknown) htype
          have hless := lt_of_refer hnew htype
          have hkey : typeName ∈ declared.keys :=
            List.mem_map_of_mem (Table.mem_of_get? hdeclared)
          have hstanding := Nat.mul_le_mul_right width (standing_lt hkey hnew htype)
          have hweight := horderly.weight hdeclared
          have hpos := element.weight_pos
          rw [Nat.succ_mul] at hstanding
          refine ⟨declaration, hdeclared, ih (by omega) (horderly.inline hdeclared) ?_ ?_ hleast⟩
          · intro _ key hkey
            cases (horderly.named hdeclared).symm.trans hkey
            exact hnew
          · exact fun other hother => (refer_mono (Nat.le_of_lt hless)).eq_none (hleft other hother)
    · rw [meaning_leaf hkind] at hmeaning
      rw [readType_of_ne hkind]
      exact .lift ((scripted_readLeaf declared element).passes_iff.mpr hmeaning)

end TypeReader
end SimpleBinary
