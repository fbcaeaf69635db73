import SimpleBinary.Ir.Generate
import SimpleBinary.Proofs.Schema.Blocks

/-! Lengths and offsets as words. Up to the first member of variable length the
sums inside a type were checked when it was read, so that only behind such a
member can one of them be too large. A schema that was accepted is compiled just
when none is. -/
namespace SimpleBinary

namespace DataType

mutual

/-- Whether nothing stands behind a member of variable length, at any depth. -/
def variableLast : DataType → Bool
  | .composite _ members => membersVariableLast members
  | .encoded .. | .enum .. | .set .. => true

def membersVariableLast : List DataType → Bool
  | [] => true
  | member :: rest =>
    member.variableLast && (!member.isVariable || rest.isEmpty) && membersVariableLast rest

end

/-- What is of variable length counts for nothing, or for one less. -/
theorem fits_of_isVariable {type : DataType} (h : type.isVariable = true) {start : Int}
    (hstart : IsPlace start) : Check.fits (start + type.encodedLength) = true := by
  have hlength : type.encodedLength = variableLength ∨ type.encodedLength = 0 := by
    cases type with
    | encoded info type =>
      rw [isVariable] at h
      rw [encodedLength, h, if_pos rfl]
      split
      · exact .inr rfl
      · exact .inl rfl
    | composite info members =>
      rw [isVariable] at h
      rw [encodedLength]
      exact .inl (membersLength_of_anyVariable h 0)
    | enum => simp [isVariable] at h
    | set => simp [isVariable] at h
  unfold variableLength at hlength
  unfold IsPlace at hstart
  rw [Check.fits_iff]
  omega

theorem lengthsFit_of_spaced {members : List DataType} (hvalid : ∀ member ∈ members, member.Valid)
    {length offset : Int} (hspaced : Spaced offset members) (hlength : IsPlace length)
    (hoffset : IsPlace offset) (hle : length ≤ offset) : lengthsFit length members = true := by
  induction members generalizing length offset with
  | nil => rfl
  | cons member rest ih =>
    have hmember := hvalid member List.mem_cons_self
    cases hvariable : member.isVariable with
    | true => rw [lengthsFit, hvariable, Bool.true_or]
    | false =>
      have hsize := hmember.isPlace_encodedLength hvariable
      obtain ⟨hbehind, hless⟩ := hspaced.isPlace_lengthBehind hvariable hsize hlength hle
      obtain ⟨-, hnext, hothers⟩ := hspaced.place hmember hvariable hoffset
      have hrest := ih (fun other hother => hvalid other (List.mem_cons_of_mem _ hother)) hothers
        hbehind hnext hless
      have hfits : Check.fits (member.lengthBehind length) = true := by
        unfold IsPlace at hbehind
        rw [Check.fits_iff]
        omega
      rw [lengthsFit, hvariable, Bool.false_or, Bool.and_eq_true]
      exact ⟨hfits, hrest⟩

mutual

theorem Valid.fits : ∀ {type : DataType}, type.Valid → type.variableLast = true →
    type.fits = true
  | .composite _ members, .composite _ hmembers _ hspaced, hlast => by
    rw [variableLast] at hlast
    rw [DataType.fits, Bool.and_eq_true]
    exact ⟨lengthsFit_of_spaced hmembers hspaced (by decide) (by decide) (Int.le_refl 0),
      membersFit_of_spaced members hmembers hlast hspaced (by decide)⟩
  | .encoded .., _, _ => by rw [DataType.fits]
  | .enum .., _, _ => by rw [DataType.fits]
  | .set .., _, _ => by rw [DataType.fits]

theorem membersFit_of_spaced : ∀ (members : List DataType), (∀ member ∈ members, member.Valid) →
    membersVariableLast members = true → ∀ {offset : Int}, Spaced offset members →
    IsPlace offset → membersFit offset members = true
  | [], _, _, _, _, _ => by rw [membersFit]
  | member :: rest, hvalid, hlast, offset, hspaced, hoffset => by
    simp only [membersVariableLast, Bool.and_eq_true, Bool.or_eq_true, Bool.not_eq_true',
      List.isEmpty_iff] at hlast
    have hmember := Valid.fits (hvalid member List.mem_cons_self) hlast.1.1
    simp only [membersFit, Bool.and_eq_true]
    cases hvariable : member.isVariable with
    | true =>
      -- the last member: what is counted behind it is not the place of anything
      obtain rfl : rest = [] := hlast.1.2.resolve_left (by simp [hvariable])
      exact ⟨⟨hmember, fits_of_isVariable hvariable (hspaced.isPlace_start hoffset)⟩,
        by rw [membersFit]⟩
    | false =>
      obtain ⟨hfits, hothers⟩ := hspaced.2 hvariable
      obtain ⟨-, hnext, -⟩ := hspaced.place (hvalid member List.mem_cons_self) hvariable hoffset
      exact ⟨⟨hmember, hfits⟩, membersFit_of_spaced rest
        (fun other hother => hvalid other (List.mem_cons_of_mem _ hother)) hlast.2 hothers hnext⟩

end

end DataType

namespace Field
variable {types : Table String DataType} {version : Int32}

def variableLast (field : Field) : Bool := field.typeInside.variableLast

mutual

theorem Valid.fits : ∀ {field : Field}, field.Valid types version →
    field.throughout variableLast = true → field.fits = true
  | .plain _ _, hvalid, hlast => by
    rw [throughout] at hlast
    rw [Field.fits]
    exact hvalid.typeInside.fits hlast
  | .data _ _, hvalid, hlast => by
    rw [throughout] at hlast
    rw [Field.fits]
    exact hvalid.typeInside.fits hlast
  | .group _ _ _ fields, hvalid, hlast => by
    have hinner : ∀ field ∈ fields, field.Valid types version := by
      cases hvalid
      assumption
    rw [throughout, Bool.and_eq_true] at hlast
    rw [Field.fits, Bool.and_eq_true]
    exact ⟨hvalid.typeInside.fits hlast.1, allFit_of_valid fields hinner hlast.2⟩

theorem allFit_of_valid : ∀ (fields : List Field), (∀ field ∈ fields, field.Valid types version) →
    everywhere variableLast fields = true → allFit fields = true
  | [], _, _ => by rw [allFit]
  | field :: rest, hvalid, hlast => by
    rw [everywhere, Bool.and_eq_true] at hlast
    rw [allFit, Bool.and_eq_true]
    exact ⟨Valid.fits (hvalid field List.mem_cons_self) hlast.1,
      allFit_of_valid rest (fun other hother => hvalid other (List.mem_cons_of_mem _ hother))
        hlast.2⟩

end

end Field

namespace Schema

def fits (schema : Schema) : Bool :=
  (schema.types.get? schema.headerType).all DataType.fits &&
    schema.messages.values.all (Field.allFit ·.fields)

def variableLast (schema : Schema) : Bool :=
  (schema.types.get? schema.headerType).all DataType.variableLast &&
    schema.messages.values.all (Field.everywhere Field.variableLast ·.fields)

theorem Valid.fits {schema : Schema} (hvalid : schema.Valid) (hlast : schema.variableLast = true) :
    schema.fits = true := by
  rw [variableLast, Bool.and_eq_true, Option.all_eq_true, List.all_eq_true] at hlast
  rw [Schema.fits, Bool.and_eq_true, Option.all_eq_true, List.all_eq_true]
  constructor
  · exact fun type htype => (hvalid.types.of_get? htype).1.fits (hlast.1 type htype)
  · intro message hmessage
    exact Field.allFit_of_valid _ (hvalid.message hmessage).row.valid (hlast.2 message hmessage)

/-- The outcome of compiling: the schema is refused if a length or an offset is
no word, which takes a member behind one of variable length, and compiled
otherwise. -/
structure Compiles (schema : Schema) (namespaceName : Option String) (P : Ir → Prop) : Prop where
  fits : schema.variableLast = true → schema.fits = true
  refused : schema.fits = false → schema.compile namespaceName = .error .tooLarge
  compiled : schema.fits = true → ∃ ir, schema.compile namespaceName = .ok ir ∧ P ir

namespace Compiles
variable {schema : Schema} {namespaceName : Option String} {P Q : Ir → Prop}

theorem imp (h : schema.Compiles namespaceName P)
    (himp : ∀ ir, schema.compile namespaceName = .ok ir → P ir → Q ir) :
    schema.Compiles namespaceName Q where
  fits := h.fits
  refused := h.refused
  compiled := by
    intro hfits
    obtain ⟨ir, hcompile, hir⟩ := h.compiled hfits
    exact ⟨ir, hcompile, himp ir hcompile hir⟩

theorem of_compile {ir : Ir} (h : schema.Compiles namespaceName P)
    (hcompile : schema.compile namespaceName = .ok ir) : P ir := by
  cases hfits : schema.fits with
  | false =>
    rw [h.refused hfits] at hcompile
    cases hcompile
  | true =>
    obtain ⟨other, hother, hP⟩ := h.compiled hfits
    cases hcompile.symm.trans hother
    exact hP

end Compiles
end Schema
end SimpleBinary
