import SimpleBinary.Proofs.Schema.Valid
import SimpleBinary.Proofs.Schema.Yields
import SimpleBinary.Schema.Layout

/-! What a layout that ends well has done, said without its log: where each
field has arrived and what room it has left behind it. -/
namespace SimpleBinary

/-- A declared offset is not inside what comes before. -/
def Layout.Roomy (layout : Layout) (field : Field) : Prop :=
  field.info.offset ≠ 0 → layout.offset ≤ field.info.offset.toInt

def Layout.arrived (layout : Layout) (hint : Int) (field : Field) : Layout :=
  { layout with offset := layout.moved hint field }

namespace Field

def arrivedAt (layout : Layout) (hint : Int) (field : Field) : Field :=
  field.mapInfo fun info => { info with
    computedOffset := if layout.isVariable then variableLength else layout.moved hint field }

/-- Fields placed one after the other, from a layout to the one behind them.
The fields of a group are placed on their own. -/
inductive Laid : (hint : Int) → Layout → List Field → List Field → Layout → Prop where
  | nil {hint : Int} {layout : Layout} : Laid hint layout [] [] layout
  | value {hint : Int} {layout next last : Layout} {field placed : Field} {type : DataType}
      {rest placedRest : List Field} :
      field.type? = some type → layout.Roomy field →
      (field.arrivedAt layout hint).placeValue (layout.arrived hint field) type =
        (placed, .ok next) →
      Laid hint next rest placedRest last →
      Laid hint layout (field :: rest) (placed :: placedRest) last
  | group {hint : Int} {layout inside last : Layout} {info : FieldInfo} {dimension : DataType}
      {blockLength : Int32} {fields inner rest placedRest : List Field} :
      layout.Roomy (.group info dimension blockLength fields) →
      Laid 0 {} fields inner inside →
      (blockLength.toInt ≠ 0 → inside.offset ≤ blockLength.toInt) →
      Laid hint { layout.arrived hint (.group info dimension blockLength fields) with
        isVariable := true } rest placedRest last →
      Laid hint layout (.group info dimension blockLength fields :: rest)
        (((Field.group info dimension blockLength inner).arrivedAt layout hint).mapInfo
          (fun info => { info with
            computedBlockLength := max blockLength.toInt inside.offset }) :: placedRest) last

theorem run_bind {α β : Type} (action : StateM Log α) (next : α → StateM Log β) (log : Log) :
    (action >>= next).run log = (next (action.run log).1).run (action.run log).2 :=
  rfl

/-- A check in the middle of a layout: the layout goes on only from a check
that ends well. -/
theorem run_checked {α : Type} {check : Check Unit} {post : Unit → Prop}
    (hcheck : Check.Yields check post) {failed : Error → α} {done result : α} {log after : Log}
    (h : (do
      match ← check.run with
      | .error error => return failed error
      | .ok () => return done : StateM Log α).run log = (result, after))
    (hfailed : ∀ error, failed error ≠ result) (hclean : after.Clean) :
    log.Clean ∧ post () ∧ result = done := by
  rw [run_bind] at h
  rcases hrun : check.run log with ⟨error | value, between⟩
  · rw [show check.run.run log = _ from hrun] at h
    exact absurd (congrArg Prod.fst h) (hfailed error)
  · rw [show check.run.run log = _ from hrun] at h
    cases h
    obtain ⟨hlog, hpost⟩ := hcheck log value _ hrun hclean
    exact ⟨hlog, hpost, rfl⟩

theorem run_arrive {hint : Int} {layout next : Layout} {field arrived : Field} {log after : Log}
    (h : (arrive hint layout field).run log = (.ok (arrived, next), after))
    (hclean : after.Clean) :
    log.Clean ∧ layout.Roomy field ∧ arrived = field.arrivedAt layout hint ∧
      next = layout.arrived hint field := by
  unfold arrive at h
  dsimp only at h
  split at h
  · exact ((run_checked (Check.Yields.error _) h nofun hclean).2.1).elim
  · next hspace =>
    rw [pure_bind] at h
    cases h
    refine ⟨hclean, fun hdeclared => ?_, rfl, rfl⟩
    exact Int.not_lt.mp fun hlt => hspace ⟨hdeclared, hlt⟩

theorem yields_blockLength (element : String) (specified computed : Int) :
    Check.Yields (Check.blockLength element specified computed) fun _ =>
      specified ≠ 0 → computed ≤ specified := by
  unfold Check.blockLength
  split
  · exact (Check.Yields.error _).mono fun _ h => h.elim
  · next h => exact .pure fun hne => Int.not_lt.mp fun hlt => h ⟨hne, hlt⟩

/-- What a placed field says about the fields placed behind it. -/
def Step (hint : Int) (layout : Layout) (field placed : Field) (next : Layout) : Prop :=
  ∀ {rest placedRest last}, Laid hint next rest placedRest last →
    Laid hint layout (field :: rest) (placed :: placedRest) last

theorem run_value {hint : Int} {layout next : Layout} {field placed : Field} {type : DataType}
    {log after : Log} (htype : field.type? = some type)
    (h : (do
      match ← arrive hint layout field with
      | .error error => return (field, .error error)
      | .ok (field, layout) => return field.placeValue layout type :
        StateM Log (Field × Except Error Layout)).run log = ((placed, .ok next), after))
    (hclean : after.Clean) : log.Clean ∧ Step hint layout field placed next := by
  rw [run_bind] at h
  rcases hrun : (arrive hint layout field).run log with ⟨error | ⟨arrived, layout'⟩, between⟩
  · rw [hrun] at h
    cases h
  · rw [hrun] at h
    obtain ⟨hplaced, rfl⟩ := Prod.mk.inj h
    obtain ⟨hlog, hroomy, rfl, rfl⟩ := run_arrive hrun hclean
    exact ⟨hlog, fun hrest => .value htype hroomy hplaced hrest⟩

mutual

/-- By recursion on the field: a group is placed once its fields are. -/
theorem run_place (hint : Int) (layout : Layout) : ∀ (field placed : Field) (next : Layout)
    (log after : Log), (place hint layout field).run log = ((placed, .ok next), after) →
    after.Clean → log.Clean ∧ Step hint layout field placed next
  | .plain info type, placed, next, log, after, h, hclean => by
    unfold place at h
    exact run_value rfl h hclean
  | .data info type, placed, next, log, after, h, hclean => by
    unfold place at h
    exact run_value rfl h hclean
  | .group info dimension blockLength fields, placed, next, log, after, h, hclean => by
    unfold place at h
    rw [run_bind] at h
    rcases harrive : (arrive hint layout (.group info dimension blockLength fields)).run log with
      ⟨error | ⟨arrived, layout'⟩, between⟩
    · rw [harrive] at h
      cases h
    · rw [harrive, run_bind] at h
      rcases hinner : (placeAll 0 {} fields).run between with ⟨⟨inner, error | inside⟩, between'⟩
      · rw [hinner] at h
        cases h
      · rw [hinner] at h
        obtain ⟨hbetween', hfits, hplaced⟩ :=
          run_checked (yields_blockLength info.name blockLength.toInt inside.offset) h nofun hclean
        obtain ⟨hbetween, hlaid⟩ :=
          run_placeAll 0 {} fields inner inside between between' hinner hbetween'
        obtain ⟨hlog, hroomy, rfl, rfl⟩ := run_arrive harrive hbetween
        cases hplaced
        exact ⟨hlog, fun hrest => .group hroomy hlaid hfits hrest⟩

theorem run_placeAll (hint : Int) (layout : Layout) : ∀ (fields placed : List Field)
    (last : Layout) (log after : Log),
    (placeAll hint layout fields).run log = ((placed, .ok last), after) →
    after.Clean → log.Clean ∧ Laid hint layout fields placed last
  | [], placed, last, log, after, h, hclean => by
    unfold placeAll at h
    cases h
    exact ⟨hclean, .nil⟩
  | field :: rest, placed, last, log, after, h, hclean => by
    unfold placeAll at h
    rw [run_bind] at h
    rcases hfirst : (place hint layout field).run log with ⟨⟨first, error | next⟩, between⟩
    · rw [hfirst] at h
      cases h
    · rw [hfirst] at h
      rcases hrest : (placeAll hint next rest).run between with ⟨⟨others, outcome⟩, after'⟩
      dsimp only at h
      rw [run_bind, hrest] at h
      cases h
      -- only the last log is known to be clean, so the rest is looked at before the first
      obtain ⟨hbetween, hlaid⟩ := run_placeAll hint next rest others last between _ hrest hclean
      obtain ⟨hlog, hstep⟩ := run_place hint layout field first next log between hfirst hbetween
      exact ⟨hlog, hstep hlaid⟩

end

theorem declared_placeValue {field placed : Field} {layout : Layout} {type : DataType}
    {outcome : Except Error Layout} (h : field.placeValue layout type = (placed, outcome)) :
    ∃ change : FieldInfo → FieldInfo, (∀ info, (change info).declared = info.declared) ∧
      placed = field.mapInfo change := by
  unfold placeValue at h
  split at h
  · cases h
    exact ⟨id, fun _ => rfl, by cases field <;> rfl⟩
  · cases h
    refine ⟨fun info => if type.encodedLength = variableLength then info
      else { info with computedBlockLength := type.encodedLength }, fun info => ?_, rfl⟩
    split <;> rfl

theorem Laid.outline {hint : Int} {layout last : Layout} {fields placed : List Field}
    (h : Laid hint layout fields placed last) :
    placed.map Field.outline = fields.map Field.outline := by
  induction h with
  | nil => rfl
  | @value hint layout _ _ field placed type rest _ _ _ hplaced _ ih =>
    obtain ⟨change, hchange, rfl⟩ := declared_placeValue hplaced
    rw [List.map_cons, List.map_cons, ih, outline_mapInfo hchange, arrivedAt,
      outline_mapInfo fun _ => by rfl]
  | group _ _ _ _ _ ih =>
    rw [List.map_cons, List.map_cons, ih]
    rfl

theorem Laid.valid {types : Table String DataType} {version : Int32} {hint : Int}
    {layout last : Layout} {fields placed : List Field} (h : Laid hint layout fields placed last)
    (hvalid : ∀ field ∈ fields, field.Valid types version) :
    ∀ field ∈ placed, field.Valid types version := by
  induction h with
  | nil => exact hvalid
  | @value hint layout _ _ field placed type rest _ _ _ hplaced _ ih =>
    obtain ⟨change, hchange, rfl⟩ := declared_placeValue hplaced
    have hfield : (field.arrivedAt layout hint).Valid types version := by
      apply (hvalid field List.mem_cons_self).mapInfo
      exact fun _ => rfl
    intro other hother
    rcases List.mem_cons.mp hother with rfl | hother
    · exact hfield.mapInfo hchange
    · exact ih (fun field hfield => hvalid field (List.mem_cons_of_mem _ hfield)) other hother
  | @group hint layout _ _ info dimension blockLength fields inner rest _ _ hlaid _ _ ihinner ih =>
    have hinner : (Field.group info dimension blockLength inner).Valid types version := by
      cases hvalid _ List.mem_cons_self with
      | group hinfo hdimension hlength hcount hfields hsiblings =>
        refine .group hinfo hdimension hlength hcount (ihinner hfields) ?_
        unfold Siblings
        rw [hlaid.outline]
        exact hsiblings
    intro other hother
    rcases List.mem_cons.mp hother with rfl | hother
    · apply Valid.mapInfo
      · apply hinner.mapInfo
        exact fun _ => rfl
      · exact fun _ => rfl
    · exact ih (fun field hfield => hvalid field (List.mem_cons_of_mem _ hfield)) other hother

theorem Laid.row {types : Table String DataType} {version : Int32} {hint : Int}
    {layout last : Layout} {fields placed : List Field} (h : Laid hint layout fields placed last)
    (hrow : Row types version fields) : Row types version placed where
  valid := h.valid hrow.valid
  siblings := by
    unfold Siblings
    rw [h.outline]
    exact hrow.siblings

end Field

namespace Message

structure Arranged (message arranged : Message) : Prop where
  laid : ∃ last, Field.Laid message.declaredBlockLength.toInt {} message.fields arranged.fields last
  same : arranged = { message with
    fields := arranged.fields, computedBlockLength := Field.fixedLength 0 arranged.fields }
  block : message.declaredBlockLength.toInt ≠ 0 →
    arranged.computedBlockLength ≤ message.declaredBlockLength.toInt

theorem run_arrange {message arranged : Message} {log after : Log}
    (h : message.arrange.run log = ((arranged, .ok ()), after)) (hclean : after.Clean) :
    log.Clean ∧ message.Arranged arranged := by
  unfold arrange at h
  rw [Field.run_bind] at h
  rcases hfields : (Field.placeAll message.declaredBlockLength.toInt {} message.fields).run log with
    ⟨⟨fields, error | last⟩, between⟩
  · rw [hfields] at h
    cases h
  · rw [hfields] at h
    rcases hcheck : (Check.blockLength message.name message.declaredBlockLength.toInt
      (Field.fixedLength 0 fields)).run.run between with ⟨outcome, after'⟩
    dsimp only at h
    rw [Field.run_bind, hcheck] at h
    cases h
    obtain ⟨hbetween, hblock⟩ := Field.yields_blockLength _ _ _ _ _ _ hcheck hclean
    obtain ⟨hlog, hlaid⟩ := Field.run_placeAll _ _ _ _ _ _ _ hfields hbetween
    exact ⟨hlog, ⟨last, hlaid⟩, rfl, hblock⟩

theorem Arranged.valid {types : Table String DataType} {version : Int32}
    {message arranged : Message} (h : message.Arranged arranged)
    (hvalid : message.Valid types version) : arranged.Valid types version := by
  obtain ⟨last, hlaid⟩ := h.laid
  have hrow := hlaid.row hvalid.row
  rw [h.same]
  exact ⟨hvalid.name, hvalid.description, hvalid.semanticType, hrow⟩

end Message
end SimpleBinary
