import SimpleBinary.Proofs.Table
import SimpleBinary.Schema.TypeReader

/-! The composites around an element. The names of the open composites are kept
in a state that every composite takes its own name out of again, so that they
are the names of the composites around a reference only as long as no composite
is opened in place inside one of its own name. Then they might as well be
handed down, and no way through a document enters a composite twice. -/
namespace SimpleBinary

namespace Xml.Element

theorem weight_eq (element : Element) : element.weight = 1 + weightAll element.children := by
  cases element
  rw [weight]

theorem weight_pos (element : Element) : 0 < element.weight := by
  rw [weight_eq]
  omega

theorem weight_le_of_mem {element : Element} {elements : List Element} (h : element ∈ elements) :
    element.weight ≤ weightAll elements := by
  induction elements with
  | nil => cases h
  | cons first rest ih =>
    unfold weightAll
    rcases List.mem_cons.mp h with rfl | h
    · omega
    · have := ih h
      omega

theorem length_le_weightAll (elements : List Element) : elements.length ≤ weightAll elements := by
  induction elements with
  | nil => exact Nat.zero_le _
  | cons first rest ih =>
    have := first.weight_pos
    rw [weightAll, List.length_cons]
    omega

theorem length_flatMap_children_le (elements : List Element) :
    (elements.flatMap (·.children)).length ≤ weightAll elements := by
  induction elements with
  | nil => exact Nat.zero_le _
  | cons first rest ih =>
    have := length_le_weightAll first.children
    rw [List.flatMap_cons, List.length_append, weightAll, first.weight_eq]
    omega

theorem weightAll_filter_le (p : Element → Bool) (elements : List Element) :
    weightAll (elements.filter p) ≤ weightAll elements := by
  induction elements with
  | nil => exact Nat.le_refl _
  | cons first rest ih =>
    rw [List.filter_cons]
    split <;> simp only [weightAll] <;> omega

theorem weight_lt_of_mem {element child : Element} (h : child ∈ element.children) :
    child.weight < element.weight := by
  have := weight_le_of_mem h
  rw [element.weight_eq]
  omega

end Xml.Element

namespace TypeReader
open Xml (Element)

section
variable {α β : Type} {names : List String}

/-- With these names open, a reading does what a check does, and the names are
open behind it as they were before. -/
def Stays (names : List String) (reading : Reading α) (check : Check α) : Prop :=
  reading.run names = check >>= fun value => pure (value, names)

namespace Stays
variable {reading : Reading α} {check : Check α}

theorem pure (value : α) : Stays names (Pure.pure value) (Pure.pure value) := rfl

theorem lift (check : Check α) : Stays names (liftM check) check := rfl

theorem bind {next : α → Reading β} {after : α → Check β} (h : Stays names reading check)
    (hnext : ∀ value, Stays names (next value) (after value)) :
    Stays names (reading >>= next) (check >>= after) := by
  unfold Stays at h hnext ⊢
  simp only [StateT.run_bind, h, hnext, bind_assoc, pure_bind]

/-- The check is what the reading does to a state that nobody looks at. -/
theorem run' (h : Stays names reading check) : reading.run' names = check := by
  change Prod.fst <$> reading.run names = check
  rw [show reading.run names = _ from h]
  simp only [map_bind, map_pure, bind_pure]

theorem foldlM {step : β → α → Reading β} {check : β → α → Check β} {items : List α}
    (h : ∀ item ∈ items, ∀ acc, Stays names (step acc item) (check acc item)) (init : β) :
    Stays names (items.foldlM step init) (items.foldlM check init) := by
  induction items generalizing init with
  | nil => exact pure init
  | cons item rest ih =>
    simp only [List.foldlM_cons]
    refine bind (h item List.mem_cons_self init) fun acc => ?_
    exact ih (fun other hother => h other (List.mem_cons_of_mem _ hother)) acc

end Stays

/-- Two readings that do the same with these names open, and leave them open. -/
def Alike (names : List String) (first second : Reading α) : Prop :=
  ∃ check, Stays names first check ∧ Stays names second check

abbrev Keeps (names : List String) (reading : Reading α) : Prop := Alike names reading reading

namespace Alike
variable {first second : Reading α}

theorem pure (value : α) : Keeps names (Pure.pure value) := ⟨_, .pure value, .pure value⟩

theorem lift (check : Check α) : Keeps names (liftM check) :=
  ⟨check, .lift check, .lift check⟩

theorem bind {next other : α → Reading β} (h : Alike names first second)
    (hnext : ∀ value, Alike names (next value) (other value)) :
    Alike names (first >>= next) (second >>= other) := by
  obtain ⟨check, hfirst, hsecond⟩ := h
  refine ⟨check >>= fun value => (hnext value).choose, ?_, ?_⟩
  · exact hfirst.bind fun value => (hnext value).choose_spec.1
  · exact hsecond.bind fun value => (hnext value).choose_spec.2

theorem ite {c : Prop} [Decidable c] {third fourth : Reading α}
    (hpos : c → Alike names first second) (hneg : ¬ c → Alike names third fourth) :
    Alike names (if c then first else third) (if c then second else fourth) := by
  split
  · next hc => exact hpos hc
  · next hc => exact hneg hc

theorem bind_get {next other : List String → Reading α}
    (h : Alike names (next names) (other names)) :
    Alike names (get >>= next) (get >>= other) :=
  h

theorem bind_required {element : Element} {key : String} {next other : String → Reading α}
    (h : ∀ value, element.attribute? key = some value → Alike names (next value) (other value)) :
    Alike names (liftM (element.required key) >>= next)
      (liftM (element.required key) >>= other) := by
  unfold Element.required
  cases hvalue : element.attribute? key with
  | none =>
    let check : Check α := throw (.schema (.missingAttribute element.name key))
    exact ⟨check, rfl, rfl⟩
  | some value => exact h value hvalue

theorem error (finding : Finding) (value : α) :
    Keeps names (do
      Check.error finding
      return value) :=
  bind (lift (Check.error finding)) fun _ => pure value

theorem stays (h : Alike names first second) : Stays names first (second.run' names) := by
  obtain ⟨check, hfirst, hsecond⟩ := h
  rw [hsecond.run']
  exact hfirst

end Alike
end

section
variable {known : Known} {names : List String} {element : Element}
  {read other : Element → Reading (Option DataType)}

/-- The declaration that a reference leads to, past the open names and the
types that have been read. -/
def Refers (known : Known) (names : List String) (reference declaration : Element) : Prop :=
  ∃ typeName, reference.attribute? "type" = some typeName ∧ typeName ∉ names ∧
    known.types.get? typeName = none ∧ known.declared.get? typeName = some declaration

theorem keeps_copy (element : Element) (name : String) (type : DataType) :
    Keeps names (do
      Check.name name
      let offset ← element.word? "offset"
      let sinceVersion ← element.word "sinceVersion" type.info.sinceVersion
      return some (type.withInfo { type.info with name, offset, sinceVersion }) :
        Reading (Option DataType)) := by
  refine .bind (.lift (Check.name name)) fun _ => ?_
  refine .bind (.lift (element.word? "offset")) fun _ => ?_
  refine .bind (.lift (element.word "sinceVersion" type.info.sinceVersion)) fun _ => ?_
  exact .pure _

theorem stays_readRef_of_mem {name typeName : String}
    (hname : element.attribute? "name" = some name)
    (htype : element.attribute? "type" = some typeName) (hopen : typeName ∈ names) :
    Stays names (readRef known read element) (do
      Check.error (.recursiveReference name typeName)
      return none) := by
  have hopen : names.contains typeName = true := by simpa using hopen
  unfold readRef Element.required
  simp only [hname, htype]
  change Stays names (if names.contains typeName then _ else _) _
  rw [if_pos hopen]
  exact .bind (.lift _) fun _ => .pure none

/-- Two readings of a reference differ only in the reading of what it leads to. -/
theorem alike_readRef
    (h : ∀ declaration, Refers known names element declaration →
      Alike names (read declaration) (other declaration)) :
    Alike names (readRef known read element) (readRef known other element) := by
  unfold readRef
  refine .bind (.lift (element.required "name")) fun name => ?_
  refine .bind_required fun typeName htype => ?_
  refine .bind_get (.ite (fun _ => .error _ _) fun hopen => ?_)
  have hopen : typeName ∉ names := by simpa using hopen
  cases hknown : known.types.get? typeName with
  | some type => exact keeps_copy element name type
  | none =>
    cases hdeclared : known.declared.get? typeName with
    | none => exact .error _ _
    | some declaration =>
      refine .bind (h declaration ⟨typeName, htype, hopen, hknown, hdeclared⟩) fun referred => ?_
      cases referred with
      | none => exact .error _ _
      | some type => exact keeps_copy element name type

theorem alike_addMember (composite : String) (members : List DataType)
    (hplain : element.name ≠ "ref" → Alike names (read element) (other element))
    (href : element.name = "ref" → ∀ declaration, Refers known names element declaration →
      Alike names (read declaration) (other declaration)) :
    Alike names (addMember known read composite members element)
      (addMember known other composite members element) := by
  unfold addMember
  dsimp only
  refine .ite (fun hname => .bind (alike_readRef (href hname)) fun member => ?_)
    fun hname => .bind (hplain hname) fun member => ?_
  all_goals
    cases member with
    | none => exact .pure members
    | some member => exact .ite (fun _ => .error _ _) fun _ => .pure _

end

/-- A reading with the open names handed to it, and not taken back from it. -/
def handed (read : List String → Element → Check (Option DataType)) (element : Element) :
    Reading (Option DataType) :=
  fun names => do return (← read names element, names)

theorem stays_handed {read : List String → Element → Check (Option DataType)} {element : Element}
    {names : List String} {check : Check (Option DataType)} (h : read names element = check) :
    Stays names (handed read element) check := by
  rw [← h]
  rfl

section
variable (known : Known) (beyond : Check (Option DataType))

mutual

/-- The type of an element inside the composites of `chain`, the innermost
first. What a reference leads to is left to `follow`, and a composite inside
one of its own name to `beyond`. -/
def readWithin (follow : List String → Element → Check (Option DataType)) (chain : List String) :
    Element → Check (Option DataType)
  | ⟨kind, attributes, text, children⟩ =>
    let element : Element := ⟨kind, attributes, text, children⟩
    if kind = "composite" then do
      let name ← element.required "name"
      let presence := (← element.presence?).getD .required
      if name ∈ chain then beyond
      else
        let members ← readMembers follow (name :: chain) name [] children
        memberOffsets name 0 members
        let info ← typeInfo element name presence
        return some (.composite info members)
    else (readType known 1 element).run' chain

def readMembers (follow : List String → Element → Check (Option DataType)) (chain : List String)
    (composite : String) (members : List DataType) : List Element → Check (List DataType)
  | [] => pure members
  | child :: rest => do
    let read := fun names element =>
      if child.name = "ref" then follow names element else readWithin follow names child
    let members ← (addMember known (handed read) composite members child).run' chain
    readMembers follow chain composite members rest

end

/-- What a reference leads to, if no way follows more than so many references. -/
def follow : Nat → List String → Element → Check (Option DataType)
  | 0 => fun _ _ => beyond
  | left + 1 => readWithin known beyond (follow left)

end

theorem readMembers_eq_foldlM (known : Known) (beyond : Check (Option DataType))
    (follow : List String → Element → Check (Option DataType)) (chain : List String)
    (composite : String) (children : List Element) (members : List DataType) :
    readMembers known beyond follow chain composite members children =
      children.foldlM (fun members child =>
        (addMember known (handed fun names element =>
          if child.name = "ref" then follow names element
          else readWithin known beyond follow names child) composite members child).run' chain)
        members := by
  induction children generalizing members with
  | nil => simp only [readMembers, List.foldlM_nil]
  | cons child rest ih => simp only [readMembers, List.foldlM_cons, ih]

/-- A name that was not open is not open behind the composite of that name. -/
theorem Stays.opened {α β : Type} {chain : List String} {name : String} (hnew : name ∉ chain)
    {reading : Reading α} {check : Check α} {next : α → Reading β} {after : α → Check β}
    (h : Stays (name :: chain) reading check)
    (hnext : ∀ value, Stays chain (next value) (after value)) :
    Stays chain (do
      modify (name :: ·)
      let value ← reading
      modify (·.filter (· ≠ name))
      next value) (check >>= after) := by
  have hclosed : (name :: chain).filter (fun other => decide (other ≠ name)) = chain := by
    rw [List.filter_cons_of_neg (by simp)]
    refine List.filter_eq_self.mpr fun other hother => ?_
    exact decide_eq_true fun heq => hnew (heq ▸ hother)
  unfold Stays at h hnext ⊢
  change (reading.run (name :: chain) >>= fun pair =>
    (next pair.1).run (pair.2.filter fun other => decide (other ≠ name))) = _
  simp only [h, bind_assoc, pure_bind, hclosed, hnext]

section
variable {known : Known} {beyond : Check (Option DataType)} {chain : List String}
  {element : Element} {read : Element → Reading (Option DataType)}
  {follow : List String → Element → Check (Option DataType)}

theorem stays_readComposite (hkind : element.name = "composite")
    (hnew : ∀ name, element.attribute? "name" = some name → name ∉ chain)
    (hplain : ∀ name, element.attribute? "name" = some name → ∀ child ∈ element.children,
      child.name ≠ "ref" →
      Stays (name :: chain) (read child) (readWithin known beyond follow (name :: chain) child))
    (href : ∀ name, element.attribute? "name" = some name → ∀ child ∈ element.children,
      child.name = "ref" → ∀ declaration, Refers known (name :: chain) child declaration →
      Stays (name :: chain) (read declaration) (follow (name :: chain) declaration)) :
    Stays chain (readComposite known read element)
      (readWithin known beyond follow chain element) := by
  obtain ⟨kind, attributes, text, children⟩ := element
  cases hname : Element.attribute? ⟨kind, attributes, text, children⟩ "name" with
  | none =>
    have hmissing : Element.required ⟨kind, attributes, text, children⟩ "name" =
        throw (.schema (.missingAttribute kind "name")) := by
      rw [Element.required, hname]
    unfold readComposite readWithin
    rw [if_pos hkind, hmissing]
    rfl
  | some name =>
    have hgiven : Element.required ⟨kind, attributes, text, children⟩ "name" = pure name := by
      rw [Element.required, hname]
    have hlifted : (liftM (pure name : Check String) : Reading String) = pure name := rfl
    have hnotin := hnew name hname
    unfold readComposite readWithin
    rw [if_pos hkind, hgiven]
    simp only [hlifted, pure_bind, if_neg hnotin, readMembers_eq_foldlM]
    refine Stays.bind (Stays.lift _) fun presence => ?_
    refine Stays.opened hnotin (Stays.foldlM (fun child hchild members => ?_) _) fun members => ?_
    · refine (alike_addMember name members (fun hother => ?_)
        fun hother declaration hto => ?_).stays
      · exact ⟨_, hplain name hname child hchild hother, stays_handed (if_neg hother)⟩
      · exact ⟨_, href name hname child hchild hother declaration hto,
          stays_handed (if_pos hother)⟩
    · refine Stays.bind (Stays.lift _) fun _ => ?_
      exact Stays.bind (Stays.lift _) fun _ => Stays.pure _

end

theorem readWithin_of_ne {known : Known} {beyond : Check (Option DataType)} {chain : List String}
    {follow : List String → Element → Check (Option DataType)} {element : Element}
    (hkind : element.name ≠ "composite") :
    readWithin known beyond follow chain element = (readType known 1 element).run' chain := by
  cases element
  rw [readWithin, if_neg hkind]

theorem alike_readType_of_ne {known : Known} {names : List String} {element : Element}
    (hkind : element.name ≠ "composite") (fuel other : Nat) :
    Alike names (readType known (fuel + 1) element) (readType known (other + 1) element) := by
  unfold readType
  split
  · exact .lift _
  · next h => exact absurd h hkind
  · exact .lift _
  · exact .lift _
  · exact .pure _

def spare (keys names : List String) : Nat := keys.countP fun key => key ∉ names

theorem spare_cons (key : String) (keys names : List String) :
    spare (key :: keys) names = spare keys names + if key ∈ names then 0 else 1 := by
  unfold spare
  rw [List.countP_cons]
  by_cases h : key ∈ names <;> simp [h]

theorem spare_open_le (keys : List String) (name : String) (names : List String) :
    spare keys (name :: names) ≤ spare keys names := by
  induction keys with
  | nil => exact Nat.le_refl _
  | cons key rest ih =>
    simp only [spare_cons, List.mem_cons]
    by_cases h : key ∈ names
    · simpa [h] using ih
    · simp only [h, or_false]
      split <;> simp only [if_false] <;> omega

theorem spare_open_lt {keys : List String} {name : String} {names : List String}
    (hkey : name ∈ keys) (hnew : name ∉ names) :
    spare keys (name :: names) < spare keys names := by
  induction keys with
  | nil => cases hkey
  | cons key rest ih =>
    have hrest := spare_open_le rest name names
    simp only [spare_cons, List.mem_cons]
    by_cases hsame : key = name
    · simp [hsame, hnew]
      omega
    · have := ih ((List.mem_cons.mp hkey).resolve_left (Ne.symm hsame))
      by_cases hopen : key ∈ names <;> simp [hsame, hopen] <;> omega

section
variable {known : Known} {width fuel left : Nat} {chain : List String} {element : Element}

/-- Every declaration is in the table under its own name, and is no larger than
`width`. -/
structure Declares (known : Known) (width : Nat) : Prop where
  named : ∀ {key declaration}, known.declared.get? key = some declaration →
    declaration.attribute? "name" = some key
  weight : ∀ {key declaration}, known.declared.get? key = some declaration →
    declaration.weight ≤ width

/-- Enough for the way inside an element. A way enters a composite at every
step; those it has been in before are lighter, and those it enters by reference
have names that were not open. -/
structure Enough (known : Known) (width fuel left : Nat) (chain : List String)
    (element : Element) : Prop where
  pos : 0 < fuel
  fuel : ∀ {name}, element.attribute? "name" = some name →
    spare known.declared.keys (name :: chain) * width + element.weight ≤ fuel
  left : ∀ {name}, element.attribute? "name" = some name →
    spare known.declared.keys (name :: chain) ≤ left

theorem Enough.inside (h : Enough known width (fuel + 1) left chain element) {name : String}
    (hname : element.attribute? "name" = some name) {child : Element}
    (hchild : child ∈ element.children) : Enough known width fuel left (name :: chain) child := by
  have hweight := Element.weight_lt_of_mem hchild
  have hpos := child.weight_pos
  have hfuel := h.fuel hname
  refine ⟨by omega, fun {inner} _ => ?_, fun {inner} _ => ?_⟩
  · have := Nat.mul_le_mul_right width (spare_open_le known.declared.keys inner (name :: chain))
    omega
  · exact Nat.le_trans (spare_open_le _ inner _) (h.left hname)

theorem Enough.follow (h : Enough known width (fuel + 1) left chain element)
    (hdeclares : Declares known width) {name : String}
    (hname : element.attribute? "name" = some name) {reference declaration : Element}
    (hto : Refers known (name :: chain) reference declaration) :
    ∃ less, left = less + 1 ∧ Enough known width fuel less (name :: chain) declaration := by
  obtain ⟨typeName, -, hnew, -, hdeclared⟩ := hto
  have hkey : typeName ∈ known.declared.keys :=
    List.mem_map_of_mem (Table.mem_of_get? hdeclared)
  have hspare := spare_open_lt hkey hnew
  have hmul := Nat.mul_le_mul_right width hspare
  have hleft := h.left hname
  have hfuel := h.fuel hname
  have hweight := hdeclares.weight hdeclared
  have hpos := declaration.weight_pos
  have helement := element.weight_pos
  rw [Nat.succ_mul] at hmul
  refine ⟨left - 1, by omega, by omega, fun {key} hkey => ?_, fun {key} hkey => ?_⟩
  · cases (hdeclares.named hdeclared).symm.trans hkey
    omega
  · cases (hdeclares.named hdeclared).symm.trans hkey
    omega

end

/-- The ways of reading, from an element inside the composites of a chain to
what is read because of it. -/
inductive Reaches (known : Known) : List String → Element → List String → Element → Prop
  | here (chain : List String) (element : Element) : Reaches known chain element chain element
  | inside {chain inner : List String} {element child last : Element} {name : String}
      (hkind : element.name = "composite") (hname : element.attribute? "name" = some name)
      (hchild : child ∈ element.children) (hplain : child.name ≠ "ref")
      (hrest : Reaches known (name :: chain) child inner last) :
      Reaches known chain element inner last
  | follow {chain inner : List String} {element child declaration last : Element} {name : String}
      (hkind : element.name = "composite") (hname : element.attribute? "name" = some name)
      (hchild : child ∈ element.children) (href : child.name = "ref")
      (hto : Refers known (name :: chain) child declaration)
      (hrest : Reaches known (name :: chain) declaration inner last) :
      Reaches known chain element inner last

/-- No composite on the way is opened in place inside one of its own name. -/
def Unshadowed (known : Known) (chain : List String) (element : Element) : Prop :=
  ∀ ⦃inner outer name child childName⦄, Reaches known chain element inner outer →
    outer.name = "composite" → outer.attribute? "name" = some name → child ∈ outer.children →
    child.name = "composite" → child.attribute? "name" = some childName →
    childName ∉ name :: inner

section
variable {known : Known} {beyond : Check (Option DataType)} {width fuel left : Nat}
  {chain : List String} {element : Element}

/-- Without shadowing the open names are those of the chain, and what is left
is enough. The induction is on the fuel; every step goes to an element that is
entered for the first time on its way. -/
theorem stays_readType (hdeclares : Declares known width)
    (henough : Enough known width fuel left chain element)
    (hclear : Unshadowed known chain element)
    (hnew : element.name = "composite" → ∀ name, element.attribute? "name" = some name →
      name ∉ chain) :
    Stays chain (readType known fuel element)
      (readWithin known beyond (follow known beyond left) chain element) := by
  induction fuel generalizing left chain element with
  | zero => exact absurd henough.pos (Nat.lt_irrefl 0)
  | succ fuel ih =>
    by_cases hkind : element.name = "composite"
    · simp only [readType, hkind]
      refine stays_readComposite hkind (hnew hkind) ?_ ?_
      · intro name hname child hchild hplain
        refine ih (henough.inside hname hchild) (fun _ _ _ _ _ hrest => ?_) fun hinner inner => ?_
        · exact hclear (.inside hkind hname hchild hplain hrest)
        · exact hclear (.here chain element) hkind hname hchild hinner
      · intro name hname child hchild href declaration hto
        obtain ⟨less, rfl, hless⟩ := henough.follow hdeclares hname hto
        refine ih hless (fun _ _ _ _ _ hrest => ?_) fun _ key hkey => ?_
        · exact hclear (.follow hkind hname hchild href hto hrest)
        · obtain ⟨typeName, -, hopen, -, hdeclared⟩ := hto
          cases (hdeclares.named hdeclared).symm.trans hkey
          exact hopen
    · rw [readWithin_of_ne hkind]
      exact (alike_readType_of_ne hkind fuel 0).stays

end

end TypeReader
end SimpleBinary
