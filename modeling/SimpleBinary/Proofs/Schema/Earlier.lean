import SimpleBinary.Proofs.Ir.Generated
import SimpleBinary.Proofs.Walk.Simple

/-! Messages as an earlier version had them: without the groups and the data
elements that came later, at any depth. What is left keeps its order, and its
run is no longer than before. -/
namespace SimpleBinary

namespace Field

def isNewer (version : Int32) : Field → Bool
  | .plain .. => false
  | .group info _ _ _ => version < info.sinceVersion
  | .data info _ => version < info.sinceVersion

mutual

def earlier (version : Int32) : Field → Field
  | .plain info type => .plain info type
  | .group info dimension blockLength fields =>
    .group info dimension blockLength (earlierAll version fields)
  | .data info type => .data info type

def earlierAll (version : Int32) : List Field → List Field
  | [] => []
  | field :: rest =>
    if field.isNewer version then earlierAll version rest
    else field.earlier version :: earlierAll version rest

end

/-- A field among others, or inside a group among them. -/
inductive Within : List Field → Field → Prop where
  | here {fields : List Field} {field : Field} : field ∈ fields → Within fields field
  | inside {fields inner : List Field} {info : FieldInfo} {dimension : DataType}
      {blockLength : Int32} {field : Field} :
      .group info dimension blockLength inner ∈ fields → Within inner field → Within fields field

theorem Within.mono {fields wider : List Field} {field : Field} (h : Within fields field)
    (hwider : ∀ other ∈ fields, other ∈ wider) : Within wider field := by
  cases h with
  | here hmem => exact .here (hwider _ hmem)
  | inside hmem hinside => exact .inside (hwider _ hmem) hinside

variable {version : Int32} {fields : List Field}

@[simp] theorem earlierAll_nil (version : Int32) : earlierAll version [] = [] := by
  rw [earlierAll]

theorem earlierAll_of_newer {field : Field} (h : field.isNewer version = true) (rest : List Field) :
    earlierAll version (field :: rest) = earlierAll version rest := by
  rw [earlierAll, if_pos h]

theorem earlierAll_of_not_newer {field : Field} (h : ¬ field.isNewer version = true)
    (rest : List Field) :
    earlierAll version (field :: rest) = field.earlier version :: earlierAll version rest := by
  rw [earlierAll, if_neg h]

theorem outline_earlier (version : Int32) (field : Field) :
    (field.earlier version).outline = field.outline := by
  cases field <;> rw [earlier] <;> rfl

/-- What is left of some kind is what is left of all of that kind. -/
theorem filter_earlierAll {kind : Field → Bool}
    (hkind : ∀ field : Field, kind (field.earlier version) = kind field) (fields : List Field) :
    (earlierAll version fields).filter kind = earlierAll version (fields.filter kind) := by
  induction fields with
  | nil => rw [earlierAll_nil, List.filter_nil, earlierAll_nil]
  | cons field rest ih =>
    by_cases hnewer : field.isNewer version = true
    · rw [earlierAll_of_newer hnewer, ih, List.filter_cons]
      split
      · rw [earlierAll_of_newer hnewer]
      · rfl
    · rw [earlierAll_of_not_newer hnewer, List.filter_cons, List.filter_cons, hkind, ih]
      split
      · rw [earlierAll_of_not_newer hnewer]
      · rfl

theorem isPlain_earlier (field : Field) : (field.earlier version).isPlain = field.isPlain := by
  cases field <;> rw [earlier] <;> rfl

theorem isGroup_earlier (field : Field) : (field.earlier version).isGroup = field.isGroup := by
  cases field <;> rw [earlier] <;> rfl

theorem isData_earlier (field : Field) : (field.earlier version).isData = field.isData := by
  cases field <;> rw [earlier] <;> rfl

theorem earlierAll_of_isPlain (h : ∀ field ∈ fields, field.isPlain = true) :
    earlierAll version fields = fields := by
  induction fields with
  | nil => exact earlierAll_nil version
  | cons field rest ih =>
    have hkind := h field List.mem_cons_self
    cases field with
    | plain info type =>
      rw [earlierAll_of_not_newer (by simp [isNewer]), earlier,
        ih fun other hother => h other (List.mem_cons_of_mem _ hother)]
    | group => cases hkind
    | data => cases hkind

theorem filter_isPlain_earlierAll (fields : List Field) :
    (earlierAll version fields).filter isPlain = fields.filter isPlain := by
  rw [filter_earlierAll isPlain_earlier]
  exact earlierAll_of_isPlain fun field hfield => (List.mem_filter.mp hfield).2

theorem outline_earlierAll (version : Int32) (fields : List Field) :
    ((earlierAll version fields).map outline).Sublist (fields.map outline) := by
  induction fields with
  | nil => simp only [earlierAll_nil, List.Sublist.refl]
  | cons field rest ih =>
    by_cases hnewer : field.isNewer version = true
    · rw [earlierAll_of_newer hnewer]
      exact .cons _ ih
    · rw [earlierAll_of_not_newer hnewer, List.map_cons, List.map_cons, outline_earlier]
      exact .cons_cons _ ih

theorem Siblings.earlierAll (h : Siblings fields) : Siblings (earlierAll version fields) :=
  List.Pairwise.sublist (outline_earlierAll version fields) h

end Field

namespace Generate

theorem length_wrapped_cons (order : ByteOrder) (starts : List Nat) (base : Nat) (field : Field)
    (rest : List Field) :
    (wrapped order starts base (field :: rest)).length =
      (body order (base + 1) field).length + 2 +
        (wrapped order starts (base + (body order (base + 1) field).length + 2) rest).length := by
  rw [wrapped_cons, wrap, List.length_append, length_bracketed]

mutual

theorem length_body_earlier (order : ByteOrder) (version : Int32) : ∀ (field : Field)
    (base other : Nat),
    (body order base (field.earlier version)).length ≤ (body order other field).length
  | .plain info type, _, _ => Nat.le_of_eq (by rw [Field.earlier, body, body])
  | .data info type, _, _ => Nat.le_of_eq (by rw [Field.earlier, body, body])
  | .group info dimension blockLength fields, _, _ => by
    rw [Field.earlier, body, body, wrapAll_bodies, wrapAll_bodies, List.length_append,
      List.length_append]
    exact Nat.add_le_add_left (length_wrapped_earlierAll order version fields _ _ _ _) _

theorem length_wrapped_earlierAll (order : ByteOrder) (version : Int32) : ∀ (fields : List Field)
    (starts others : List Nat) (base other : Nat),
    (wrapped order starts base (Field.earlierAll version fields)).length ≤
      (wrapped order others other fields).length
  | [], _, _, _, _ => by
    rw [Field.earlierAll_nil, wrapped_nil]
    exact Nat.zero_le _
  | field :: rest, starts, others, base, other => by
    rw [length_wrapped_cons order others]
    by_cases hnewer : field.isNewer version = true
    · rw [Field.earlierAll_of_newer hnewer]
      exact Nat.le_trans (length_wrapped_earlierAll order version rest starts others base _)
        (Nat.le_add_left _ _)
    · rw [Field.earlierAll_of_not_newer hnewer, length_wrapped_cons]
      exact Nat.add_le_add
        (Nat.add_le_add_right (length_body_earlier order version field (base + 1) (other + 1)) 2)
        (length_wrapped_earlierAll order version rest starts others _ _)

end

end Generate

def Message.earlier (message : Message) (version : Int32) : Message :=
  { message with fields := Field.earlierAll version message.fields }

end SimpleBinary
