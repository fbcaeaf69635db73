import SimpleBinary.Proofs.Schema.Layout

/-! The places of fixed things. A type without a free end has a length that a
word can say, and a plain field of such a type a place in its block, however
deep the group that it stands in. -/
namespace SimpleBinary

theorem Check.fits_iff {n : Int} :
    Check.fits n = true ↔ -2147483648 ≤ n ∧ n ≤ 2147483647 := by
  simp [Check.fits]

/-- What an offset or a length can be. -/
def IsPlace (n : Int) : Prop := 0 ≤ n ∧ n ≤ 2147483647

instance (n : Int) : Decidable (IsPlace n) := inferInstanceAs (Decidable (_ ∧ _))

theorem Primitive.isPlace_size (primitive : Primitive) : IsPlace primitive.size := by
  cases primitive <;> decide

theorem IsPlace.toInt_ofInt {n : Int} (h : IsPlace n) : (Int32.ofInt n).toInt = n := by
  unfold IsPlace at h
  exact Int32.toInt_ofInt_of_le (by omega) (by omega)

theorem IsPlace.ofInt_eq_zero {n : Int} (h : IsPlace n) : Int32.ofInt n = 0 ↔ n = 0 := by
  rw [← Int32.toInt_inj, h.toInt_ofInt]
  rfl

theorem toInt_le (word : Int32) : word.toInt ≤ 2147483647 := by
  have := word.toInt_lt
  omega

namespace DataType

theorem anyVariable_eq_any (members : List DataType) :
    anyVariable members = members.any isVariable := by
  induction members with
  | nil => rw [anyVariable, List.any_nil]
  | cons member rest ih => rw [anyVariable, List.any_cons, ih]

/-- The length behind a member, where a constant takes no room. -/
def lengthBehind (length : Int) (member : DataType) : Int :=
  if member.isConstant then member.start length else member.start length + member.encodedLength

theorem membersLength_cons {member : DataType} (hfixed : member.isVariable = false) (length : Int)
    (rest : List DataType) :
    membersLength length (member :: rest) = membersLength (member.lengthBehind length) rest := by
  rw [membersLength, if_neg (by simp [hfixed])]
  rfl

/-- The length never runs ahead of the offset that members are checked
against. -/
theorem Spaced.isPlace_lengthBehind {member : DataType} {rest : List DataType} {length offset : Int}
    (h : Spaced offset (member :: rest)) (hfixed : member.isVariable = false)
    (hsize : IsPlace member.encodedLength) (hlength : IsPlace length) (hle : length ≤ offset) :
    IsPlace (member.lengthBehind length) ∧
      member.lengthBehind length ≤ member.start offset + member.encodedLength := by
  obtain ⟨hroom, hnext⟩ := h
  have hend := Check.fits_iff.mp (hnext hfixed).1
  have hstart : 0 ≤ member.start length ∧ member.start length ≤ member.start offset := by
    unfold IsPlace at hlength
    cases hoffset : member.info.offset with
    | some declared =>
      rw [start_of_some offset hoffset] at hroom ⊢
      rw [start_of_some length hoffset]
      omega
    | none =>
      rw [start_of_none offset hoffset, start_of_none length hoffset]
      omega
  unfold lengthBehind
  unfold IsPlace at hsize ⊢
  split <;> omega

mutual

theorem Valid.isPlace_encodedLength : ∀ {type : DataType}, type.Valid → type.isVariable = false →
    IsPlace type.encodedLength
  | .encoded info type, .encoded _ htype, hfixed => by
    have hlength := htype.length
    have hfits := Check.fits_iff.mp htype.fits
    have hnonneg : 0 ≤ (type.primitive.size : Int) * type.length.toInt :=
      Int.mul_nonneg (Int.natCast_nonneg _) hlength
    rw [isVariable] at hfixed
    rw [encodedLength, hfixed]
    unfold IsPlace arraySize
    split
    · decide
    · simp only [Bool.false_eq_true, if_false]
      omega
  | .composite info members, .composite _ hmembers _ hspaced, hfixed => by
    rw [isVariable] at hfixed
    rw [encodedLength]
    exact isPlace_membersLength members hmembers hfixed 0 0 hspaced (by decide) (by decide)
  | .enum _ type, _, _ => by
    rw [encodedLength]
    exact type.encoding.isPlace_size
  | .set _ type, _, _ => by
    rw [encodedLength]
    exact type.encoding.isPlace_size

theorem isPlace_membersLength : ∀ (members : List DataType),
    (∀ member ∈ members, member.Valid) → anyVariable members = false → ∀ length offset : Int,
    Spaced offset members → IsPlace length ∧ IsPlace offset → length ≤ offset →
    IsPlace (membersLength length members)
  | [], _, _, length, offset, _, hplace, _ => by
    rw [membersLength]
    exact hplace.1
  | member :: rest, hmembers, hfixed, length, offset, hspaced, hplace, hle => by
    rw [anyVariable, Bool.or_eq_false_iff] at hfixed
    obtain ⟨hroom, hnext⟩ := id hspaced
    obtain ⟨hfits, hrest⟩ := hnext hfixed.1
    have hend := Check.fits_iff.mp hfits
    have hsize := Valid.isPlace_encodedLength (hmembers member List.mem_cons_self) hfixed.1
    obtain ⟨hbehind, hless⟩ := hspaced.isPlace_lengthBehind hfixed.1 hsize hplace.1 hle
    rw [membersLength_cons hfixed.1]
    refine isPlace_membersLength rest
      (fun other hother => hmembers other (List.mem_cons_of_mem _ hother)) hfixed.2 _ _ hrest
      ⟨hbehind, ?_⟩ hless
    unfold IsPlace at hplace hsize ⊢
    omega

end

/-- A member of fixed length has a place, and so has what is behind it. -/
theorem Spaced.place {member : DataType} {rest : List DataType} {offset : Int}
    (h : Spaced offset (member :: rest)) (hvalid : member.Valid)
    (hfixed : member.isVariable = false) (hoffset : IsPlace offset) :
    IsPlace (member.start offset) ∧ IsPlace (member.start offset + member.encodedLength) ∧
      Spaced (member.start offset + member.encodedLength) rest := by
  obtain ⟨hstart, hnext⟩ := h
  obtain ⟨hfits, hrest⟩ := hnext hfixed
  have hend := Check.fits_iff.mp hfits
  have hsize := hvalid.isPlace_encodedLength hfixed
  unfold IsPlace at hoffset hsize ⊢
  exact ⟨by omega, by omega, hrest⟩

theorem Spaced.isPlace_start {member : DataType} {rest : List DataType} {offset : Int}
    (h : Spaced offset (member :: rest)) (hoffset : IsPlace offset) :
    IsPlace (member.start offset) := by
  have hle := h.1
  cases hdeclared : member.info.offset with
  | none =>
    rw [start_of_none offset hdeclared]
    exact hoffset
  | some declared =>
    have hbound := toInt_le declared
    rw [start_of_some offset hdeclared] at hle ⊢
    unfold IsPlace at hoffset ⊢
    omega

end DataType

namespace Field

def isFixed : Field → Bool
  | .plain _ type => !type.isVariable
  | _ => true

def hasPlace : Field → Bool
  | .plain info _ => IsPlace info.computedOffset
  | _ => true

theorem placeValue_plain {info : FieldInfo} {type : DataType} {layout next : Layout}
    {placed : Field} (hvalid : type.Valid) (hfixed : type.isVariable = false)
    (hvariable : layout.isVariable = false) (hoffset : IsPlace layout.offset)
    (h : (Field.plain info type).placeValue layout type = (placed, .ok next)) :
    (∃ info' : FieldInfo, placed = .plain info' type ∧
      info'.computedOffset = info.computedOffset) ∧
      next.isVariable = false ∧ IsPlace next.offset := by
  have hsize := hvalid.isPlace_encodedLength hfixed
  have hsized : type.encodedLength ≠ variableLength := by
    unfold variableLength
    unfold IsPlace at hsize
    omega
  unfold placeValue at h
  split at h
  · cases h
    exact ⟨⟨info, rfl, rfl⟩, hvariable, hoffset⟩
  · obtain ⟨rfl, hafter⟩ := Prod.mk.inj h
    unfold Layout.after at hafter
    rw [if_neg hsized, if_neg (by simp [hvariable])] at hafter
    split at hafter
    · next hfits =>
      have hend := Check.fits_iff.mp hfits
      cases hafter
      refine ⟨⟨_, rfl, ?_⟩, hvariable, ?_⟩
      · dsimp only
        rw [if_neg hsized]
      · unfold IsPlace at hoffset hsize ⊢
        dsimp only
        omega
    · cases hafter

theorem isPlace_moved {info : FieldInfo} {type : DataType} {layout : Layout} (hint : Int)
    (hfixed : type.isVariable = false) (hoffset : IsPlace layout.offset)
    (hroomy : layout.Roomy (.plain info type)) :
    IsPlace (layout.moved hint (.plain info type)) := by
  have hbound := toInt_le info.offset
  unfold Layout.moved
  split
  · exact hoffset
  · split
    · next hdeclared =>
      have hroom := hroomy hdeclared
      unfold IsPlace at hoffset ⊢
      dsimp only [Field.info] at hroom ⊢
      omega
    · split
      · next hmoves => simp [isGroup, isVariable, hfixed] at hmoves
      · exact hoffset

theorem rank_le_of_siblings {field other : Field} {rest : List Field}
    (h : Siblings (field :: rest)) (hother : other ∈ rest) : field.rank ≤ other.rank :=
  ((List.pairwise_cons.mp h).1 other.outline (List.mem_map_of_mem hother)).1

theorem Siblings.tail {field : Field} {rest : List Field} (h : Siblings (field :: rest)) :
    Siblings rest :=
  (List.pairwise_cons.mp h).2

/-- Plain fields come first, so each of them has a place if all are fixed. -/
theorem Laid.everywhere_hasPlace {types : Table String DataType} {version : Int32} {hint : Int}
    {layout last : Layout} {fields placed : List Field} (h : Laid hint layout fields placed last)
    (hvalid : ∀ field ∈ fields, field.Valid types version) (hsiblings : Siblings fields)
    (hfixed : everywhere isFixed placed = true)
    (hlayout : (layout.isVariable = false ∧ IsPlace layout.offset) ∨
      ∀ field ∈ fields, field.rank ≠ 0) : everywhere hasPlace placed = true := by
  induction h with
  | nil => rfl
  | @value hint layout next last field placed type rest placedRest htype hroomy hplaced _ ih =>
    have hrest := fun field hfield => hvalid field (List.mem_cons_of_mem _ hfield)
    rw [everywhere, Bool.and_eq_true] at hfixed ⊢
    cases field with
    | group => cases htype
    | plain info type' =>
      cases htype
      -- the offset is lost behind a group or data, but no plain field comes after those
      have hlayout : layout.isVariable = false ∧ IsPlace layout.offset := by
        rcases hlayout with hlayout | hnone
        · exact hlayout
        · exact absurd rfl (hnone _ List.mem_cons_self)
      have htypeValid : type.Valid := by
        cases hvalid _ List.mem_cons_self
        assumption
      have htypeFixed : type.isVariable = false := by
        obtain ⟨change, -, rfl⟩ := declared_placeValue hplaced
        simpa [arrivedAt, mapInfo, throughout, isFixed] using hfixed.1
      have hmoved := isPlace_moved hint htypeFixed hlayout.2 hroomy
      have harrived : (layout.arrived hint (plain info type)).isVariable = false := hlayout.1
      obtain ⟨⟨info', rfl, hinfo'⟩, hnext⟩ :=
        placeValue_plain htypeValid htypeFixed harrived hmoved hplaced
      refine ⟨?_, ih hrest hsiblings.tail hfixed.2 (.inl hnext)⟩
      rw [throughout, hasPlace, hinfo', hlayout.1]
      exact decide_eq_true hmoved
    | data info type' =>
      obtain ⟨change, -, rfl⟩ := declared_placeValue hplaced
      refine ⟨rfl, ih hrest hsiblings.tail hfixed.2 (.inr fun other hother => ?_)⟩
      have hle : 2 ≤ other.rank := rank_le_of_siblings hsiblings hother
      omega
  | @group hint layout inside last info dimension blockLength fields inner rest placedRest hroomy
      _ _ _ ihInner ih =>
    have hrest := fun field hfield => hvalid field (List.mem_cons_of_mem _ hfield)
    rw [everywhere, Bool.and_eq_true] at hfixed ⊢
    cases hvalid _ List.mem_cons_self with
    | group _ _ _ _ hfields hinside =>
      have hinner : everywhere isFixed inner = true := by
        simpa [arrivedAt, mapInfo, throughout, isFixed] using hfixed.1
      refine ⟨?_, ih hrest hsiblings.tail hfixed.2 (.inr fun other hother => ?_)⟩
      · have hplaces := ihInner hfields hinside hinner (.inl ⟨rfl, by decide⟩)
        simpa [arrivedAt, mapInfo, throughout, hasPlace] using hplaces
      · have hle : 1 ≤ other.rank := rank_le_of_siblings hsiblings hother
        omega

end Field
end SimpleBinary
