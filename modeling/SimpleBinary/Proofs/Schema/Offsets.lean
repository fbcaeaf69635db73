import SimpleBinary.Proofs.Schema.MessageScripts
import SimpleBinary.Proofs.Schema.Sizes
import SimpleBinary.Proofs.Schema.VariablePart

/-! Offsets. Whatever fields a layout is given, and whatever has been logged
before it, a layout that finds no fault packs the fixed fields in front of a
list one behind the other, and gives no offset to anything behind the first
group or element of variable length. -/
namespace SimpleBinary

namespace Check.Script
variable {α : Type} {policy : Policy}

theorem run_without (script : Script α) (before : List Diagnostic) {more last : List Diagnostic}
    {value : α}
    (h : script.play.run ⟨policy, before ++ more⟩ = (.ok value, ⟨policy, before ++ last⟩)) :
    script.play.run ⟨policy, more⟩ = (.ok value, ⟨policy, last⟩) := by
  induction script generalizing more with
  | done outcome =>
    obtain ⟨rfl, hlog⟩ := Prod.mk.inj h
    have hlast : more = last := List.append_cancel_left (congrArg Log.diagnostics hlog)
    rw [hlast]
    rfl
  | found diagnostic rest ih =>
    cases hstops : stops policy diagnostic with
    | true =>
      rw [run_found_stop rest hstops] at h
      cases h
    | false =>
      rw [run_found_go rest hstops, List.append_assoc] at h
      rw [run_found_go rest hstops]
      exact ih h
  | checkpoint rest ih =>
    cases hrefuses : refuses policy (before ++ more) with
    | true =>
      rw [run_checkpoint_stop rest hrefuses] at h
      cases h
    | false =>
      have hmore : refuses policy more = false := by
        rw [refuses, List.any_append, Bool.or_eq_false_iff] at hrefuses
        exact hrefuses.2
      rw [run_checkpoint_go rest hrefuses] at h
      rw [run_checkpoint_go rest hmore]
      exact ih h

end Check.Script

theorem Log.clean_of_errorCount {policy : Policy} {before more : List Diagnostic}
    (h : Log.errorCount ⟨policy, before ++ more⟩ = Log.errorCount ⟨policy, before⟩) :
    Log.Clean ⟨policy, more⟩ := by
  simp only [errorCount, Diagnostic.count, List.countP_append, Nat.add_eq_left,
    List.countP_eq_zero, decide_eq_true_eq] at h
  exact h

namespace Field

/-- A layout that logs no error has laid out its fields, whatever was logged
before. -/
theorem laid_of_errorCount {hint : Int} {layout last : Layout} {fields placed : List Field}
    {log after : Log} (h : (placeAll hint layout fields).run log = ((placed, .ok last), after))
    (hcount : after.errorCount = log.errorCount) : Laid hint layout fields placed last := by
  obtain ⟨script, hscript, -⟩ := scripted_placeAll hint fields layout
  have hattempt : ∀ log, script.play.run log =
      (((placeAll hint layout fields).run log).1.2.map
        (((placeAll hint layout fields).run log).1.1, ·),
        ((placeAll hint layout fields).run log).2) := by
    intro log
    rw [← hscript]
    rfl
  obtain ⟨policy, before⟩ := log
  obtain ⟨more, hmore⟩ := script.exists_found policy before
  have hrun := hattempt ⟨policy, before⟩
  rw [h] at hrun
  rw [hrun] at hmore
  obtain rfl : after = ⟨policy, before ++ more⟩ := hmore
  -- the same layout on an empty log, where an error that is not new cannot be
  have hfresh : script.play.run ⟨policy, []⟩ = (.ok (placed, last), ⟨policy, more⟩) := by
    apply script.run_without before
    rw [List.append_nil]
    exact hrun
  rw [hattempt] at hfresh
  rcases hlayout : (placeAll hint layout fields).run ⟨policy, []⟩ with ⟨⟨inner, error | end'⟩, log⟩
  · rw [hlayout] at hfresh
    cases hfresh
  · rw [hlayout] at hfresh
    cases hfresh
    exact (run_placeAll _ _ _ _ _ _ _ hlayout (Log.clean_of_errorCount hcount)).2

mutual

/-- A field as it was before it was placed, at every depth. -/
def unplaced : Field → Field
  | .plain info type => .plain { info with computedOffset := 0, computedBlockLength := 0 } type
  | .group info dimension blockLength fields =>
    .group { info with computedOffset := 0, computedBlockLength := 0 } dimension blockLength
      (allUnplaced fields)
  | .data info type => .data { info with computedOffset := 0, computedBlockLength := 0 } type

def allUnplaced : List Field → List Field
  | [] => []
  | field :: rest => field.unplaced :: allUnplaced rest

end

theorem Laid.allUnplaced_eq {hint : Int} {layout last : Layout} {fields placed : List Field}
    (h : Laid hint layout fields placed last) : allUnplaced placed = allUnplaced fields := by
  induction h with
  | nil => rfl
  | @value hint layout next last field placed type rest placedRest htype _ hplaced _ ih =>
    obtain ⟨⟨length, rfl⟩, -⟩ := behind_of_placeValue hplaced
    cases field with
    | group => cases htype
    | plain => simp only [allUnplaced, arrivedAt, mapInfo, unplaced, ih]
    | data => simp only [allUnplaced, arrivedAt, mapInfo, unplaced, ih]
  | group _ _ _ _ ihInner ih => simp only [allUnplaced, arrivedAt, mapInfo, unplaced, ihInner, ih]

mutual

theorem throughout_unplaced {kind : Field → Bool}
    (hkind : ∀ field, kind field.unplaced = kind field) :
    ∀ field : Field, field.unplaced.throughout kind = field.throughout kind
  | .plain info type => hkind (.plain info type)
  | .group info dimension blockLength fields => by
    have hgroup := hkind (.group info dimension blockLength fields)
    rw [unplaced] at hgroup ⊢
    rw [throughout, throughout, hgroup, everywhere_unplaced hkind fields]
  | .data info type => hkind (.data info type)

theorem everywhere_unplaced {kind : Field → Bool}
    (hkind : ∀ field, kind field.unplaced = kind field) :
    ∀ fields : List Field, everywhere kind (allUnplaced fields) = everywhere kind fields
  | [] => rfl
  | field :: rest => by
    rw [allUnplaced, everywhere, everywhere, throughout_unplaced hkind field,
      everywhere_unplaced hkind rest]

end

theorem of_throughout {kind : Field → Bool} {field : Field} (h : field.throughout kind = true) :
    kind field = true := by
  cases field with
  | plain => exact h
  | data => exact h
  | group =>
    rw [throughout, Bool.and_eq_true] at h
    exact h.1

def hasLength (field : Field) : Bool :=
  field.type?.all fun type => type.isVariable || 0 ≤ type.encodedLength

theorem hasLength_unplaced (field : Field) : field.unplaced.hasLength = field.hasLength := by
  cases field <;> simp only [unplaced, hasLength, type?]

def isTight : Field → Bool
  | .plain _ type => !type.isVariable
  | _ => false

/-- A group, or an element that takes room of variable length: what comes
behind has no fixed place. -/
def isOpen (field : Field) : Bool :=
  field.isGroup ||
    !field.isConstant && field.type?.any fun type => type.encodedLength = variableLength

/-- Where a field ends; a constant ends where it starts. -/
def finish (field : Field) : Int :=
  if field.isConstant then field.info.computedOffset
  else field.info.computedOffset + field.type?.elim 0 DataType.encodedLength

def endFrom (offset : Int) (fields : List Field) : Int := fields.getLast?.elim offset finish

@[simp] theorem endFrom_nil (offset : Int) : endFrom offset [] = offset := rfl

@[simp] theorem endFrom_cons (offset : Int) (field : Field) (rest : List Field) :
    endFrom offset (field :: rest) = endFrom field.finish rest := by
  unfold endFrom
  rw [List.getLast?_cons]
  cases rest.getLast? <;> rfl

def lead (fields : List Field) : List Field := fields.takeWhile isTight

/-- Fields one behind the other, each at the offset that it declares, or else at
the end of the one before it. -/
def Packed (offset : Int) : List Field → Prop
  | [] => True
  | field :: rest =>
    field.info.computedOffset = field.offsetOr offset ∧ offset ≤ field.info.computedOffset ∧
      field.info.computedOffset ≤ field.finish ∧ Packed field.finish rest

namespace Packed
variable {offset : Int} {fields : List Field}

theorem computedOffset_eq {front back : List Field} {field : Field}
    (h : Packed offset (front ++ field :: back)) :
    field.info.computedOffset = field.offsetOr (endFrom offset front) := by
  induction front generalizing offset with
  | nil => exact h.1
  | cons first front ih =>
    rw [endFrom_cons]
    exact ih h.2.2.2

theorem le_computedOffset (h : Packed offset fields) :
    ∀ field ∈ fields, offset ≤ field.info.computedOffset := by
  induction fields generalizing offset with
  | nil => simp
  | cons first rest ih =>
    obtain ⟨-, hle, hfinish, hrest⟩ := h
    intro field hfield
    rcases List.mem_cons.mp hfield with rfl | hfield
    · exact hle
    · have hbehind := ih hrest field hfield
      omega

/-- No field starts before one in front of it ends. -/
theorem pairwise (h : Packed offset fields) : fields.Pairwise fun a b =>
    a.info.computedOffset ≤ a.finish ∧ a.finish ≤ b.info.computedOffset := by
  induction fields generalizing offset with
  | nil => exact .nil
  | cons first rest ih =>
    obtain ⟨-, -, hfinish, hrest⟩ := h
    refine .cons (fun other hother => ⟨hfinish, ?_⟩) (ih hrest)
    exact hrest.le_computedOffset other hother

end Packed

section
variable {hint : Int} {layout last : Layout} {fields : List Field}

theorem Settled.tight {offset : Int} {field : Field} {rest : List Field}
    (h : Settled hint ⟨offset, false⟩ (field :: rest) last) (htight : field.isTight = true)
    (hlength : field.hasLength = true) (hoffset : 0 ≤ offset) :
    field.info.computedOffset = field.offsetOr offset ∧ offset ≤ field.info.computedOffset ∧
      field.info.computedOffset ≤ field.finish ∧
      Settled hint ⟨field.finish, false⟩ rest last := by
  cases field with
  | group => cases htight
  | data => cases htight
  | plain info type =>
    cases h with
    | value htype hroomy hcomputed hrest =>
      cases htype
      have hfixed : type.isVariable = false := by simpa [isTight] using htight
      have hsize : 0 ≤ type.encodedLength := by simpa [hasLength, type?, hfixed] using hlength
      have hmoved : Layout.moved ⟨offset, false⟩ hint (.plain info type) =
          (Field.plain info type).offsetOr offset := by
        have hplace : offset ≠ variableLength := by
          unfold variableLength
          omega
        unfold Layout.moved offsetOr
        by_cases hdeclared : info.offset = 0 <;>
          simp [hplace, hdeclared, Field.info, isGroup, isVariable, hfixed]
      have hstart : info.computedOffset = (Field.plain info type).offsetOr offset := by
        rw [← hmoved]
        exact hcomputed
      have hle : offset ≤ info.computedOffset := by
        rw [hstart, ← hmoved]
        exact le_moved hroomy (.inr (.inr hfixed))
      have hfinish : ((Layout.arrived ⟨offset, false⟩ hint (.plain info type)).behind
          (.plain info type) type) = ⟨(Field.plain info type).finish, false⟩ := by
        have hknown : type.encodedLength ≠ variableLength := by
          unfold variableLength
          omega
        unfold Layout.behind finish
        rw [Layout.arrived, hmoved, ← hstart, if_neg hknown]
        split <;> rfl
      refine ⟨hstart, hle, ?_, by rwa [hfinish] at hrest⟩
      unfold finish
      split
      · exact Int.le_refl _
      · exact Int.le_add_of_nonneg_right hsize

theorem Settled.packed {offset : Int} (h : Settled hint ⟨offset, false⟩ fields last)
    (hlength : everywhere hasLength fields = true) (hoffset : 0 ≤ offset) :
    Packed offset (lead fields) ∧ 0 ≤ endFrom offset (lead fields) ∧
      Settled hint ⟨endFrom offset (lead fields), false⟩ (fields.dropWhile isTight) last := by
  induction fields generalizing offset with
  | nil => exact ⟨trivial, hoffset, h⟩
  | cons field rest ih =>
    unfold lead at ih ⊢
    cases htight : field.isTight with
    | false =>
      have hother : ¬ field.isTight = true := by simp [htight]
      rw [List.takeWhile_cons_of_neg hother, List.dropWhile_cons_of_neg hother]
      exact ⟨trivial, hoffset, h⟩
    | true =>
      rw [List.takeWhile_cons_of_pos htight, List.dropWhile_cons_of_pos htight, endFrom_cons]
      rw [everywhere, Bool.and_eq_true] at hlength
      obtain ⟨hstart, hle, hfinish, hrest⟩ :=
        h.tight htight (of_throughout hlength.1) hoffset
      obtain ⟨hpacked, hend, hbehind⟩ := ih hrest hlength.2 (by omega)
      exact ⟨⟨hstart, hle, hfinish, hpacked⟩, hend, hbehind⟩

theorem Settled.computedOffset_of_isVariable (h : Settled hint layout fields last)
    (hvariable : layout.isVariable = true) :
    ∀ field ∈ fields, field.info.computedOffset = variableLength := by
  induction h with
  | nil => simp
  | @value hint layout last field type rest _ _ hoffset _ ih =>
    rw [List.forall_mem_cons]
    constructor
    · rw [hoffset, Layout.offsetOf, if_pos hvariable]
    · apply ih
      unfold Layout.behind
      split
      · exact hvariable
      · split
        · rfl
        · simp [hvariable]
  | group _ hoffset _ _ _ _ _ ih =>
    rw [List.forall_mem_cons]
    constructor
    · exact hoffset.trans (if_pos hvariable)
    · exact ih rfl

theorem Settled.behind_open {front back : List Field} {field : Field}
    (h : Settled hint layout (front ++ field :: back) last) (hopen : field.isOpen = true) :
    ∀ other ∈ back, other.info.computedOffset = variableLength := by
  induction front generalizing layout with
  | cons first front ih =>
    cases h with
    | value _ _ _ hrest => exact ih hrest
    | group _ _ _ _ _ hrest => exact ih hrest
  | nil =>
    cases h with
    | group _ _ _ _ _ hrest => exact hrest.computedOffset_of_isVariable rfl
    | @value _ _ _ _ type _ htype _ _ hrest =>
      apply hrest.computedOffset_of_isVariable
      have hgroup : field.isGroup = false := by
        cases field with
        | group => cases htype
        | plain => rfl
        | data => rfl
      simp only [isOpen, hgroup, htype, Option.any_some, Bool.false_or, Bool.and_eq_true,
        Bool.not_eq_true', decide_eq_true_eq] at hopen
      simp [Layout.behind, hopen]

theorem Settled.computedOffset_open {offset : Int} {field : Field} {rest : List Field}
    (h : Settled hint ⟨offset, false⟩ (field :: rest) last) (hopen : field.isOpen = true)
    (hlength : field.hasLength = true) (hoffset : 0 ≤ offset) (hnone : field.info.offset = 0) :
    field.info.computedOffset = if hint = 0 then offset else hint := by
  have hfree : (field.isGroup || field.isVariable) = true := by
    cases field with
    | group => rfl
    | data => rfl
    | plain info type =>
      have hsize : type.encodedLength = variableLength := by
        simp only [isOpen, isGroup, type?, Option.any_some, Bool.false_or, Bool.and_eq_true,
          decide_eq_true_eq] at hopen
        exact hopen.2
      have hvariable : type.isVariable = true := by
        simpa [hasLength, type?, hsize, variableLength] using hlength
      exact hvariable
  have hplace : offset ≠ variableLength := by
    unfold variableLength
    omega
  have hmoved : Layout.moved ⟨offset, false⟩ hint field = if hint = 0 then offset else hint := by
    unfold Layout.moved
    by_cases hhint : hint = 0 <;> simp [hplace, hnone, hfree, hhint]
  rw [← hmoved]
  cases h with
  | value _ _ hcomputed _ => exact hcomputed
  | group _ hcomputed _ _ _ _ => exact hcomputed

/-- What fields come to where they stand, given the hint for the first element
that has no fixed place, and the end of the layout. -/
structure Stands (hint : Int) (fields : List Field) (last : Int) : Prop where
  /-- A fixed plain field is at the offset that it declares, or else where the
  field before it ends. -/
  packed : ∀ front field back, lead fields = front ++ field :: back →
    field.info.computedOffset = field.offsetOr (endFrom 0 front)
  nonneg : ∀ field ∈ lead fields, 0 ≤ field.info.computedOffset
  ascending : (lead fields).Pairwise fun a b => a.info.computedOffset ≤ b.info.computedOffset
  /-- The bytes of a field are from its offset to its end. -/
  disjoint : (lead fields).Pairwise fun a b => a.finish ≤ b.info.computedOffset
  /-- The first element behind them moves to the hint if it is open. -/
  next : ∀ field rest, fields = lead fields ++ field :: rest → field.isOpen = true →
    field.info.offset = 0 →
    field.info.computedOffset = if hint = 0 then endFrom 0 (lead fields) else hint
  behind : ∀ front field back, fields = front ++ field :: back → field.isOpen = true →
    ∀ other ∈ back, other.info.computedOffset = variableLength
  whole : lead fields = fields → last = endFrom 0 fields

theorem Settled.stands (h : Settled hint {} fields last)
    (hlength : everywhere hasLength fields = true) : Stands hint fields last.offset := by
  obtain ⟨hpacked, hend, hbehind⟩ := h.packed hlength (Int.le_refl 0)
  have hsplit : fields = lead fields ++ fields.dropWhile isTight :=
    List.takeWhile_append_dropWhile.symm
  exact {
    packed := by
      intro front field back hlead
      rw [hlead] at hpacked
      exact hpacked.computedOffset_eq
    nonneg := hpacked.le_computedOffset
    ascending := hpacked.pairwise.imp fun h => Int.le_trans h.1 h.2
    disjoint := hpacked.pairwise.imp fun h => h.2
    next := by
      intro field rest hfields hopen hnone
      have hdrop : fields.dropWhile isTight = field :: rest :=
        List.append_cancel_left (hsplit.symm.trans hfields)
      have hfield : field ∈ fields := by
        rw [hfields]
        simp
      rw [hdrop] at hbehind
      exact hbehind.computedOffset_open hopen (of_throughout (throughout_of_mem hlength hfield))
        hend hnone
    behind := by
      intro front field back hfields hopen
      rw [hfields] at h
      exact h.behind_open hopen
    whole := by
      intro hlead
      have hdrop : fields.dropWhile isTight = [] := by
        have hall := congrArg List.length hsplit
        rw [List.length_append, hlead] at hall
        exact List.eq_nil_of_length_eq_zero (by omega)
      rw [hdrop] at hbehind
      cases hbehind
      rw [hlead] }

/-- Every field stands where it should: those of the list by the hint, and those
of every group in it, at any depth, by none. Nothing else has changed. -/
structure Placed (hint : Int) (fields placed : List Field) (last : Int) : Prop where
  same : allUnplaced placed = allUnplaced fields
  stands : Stands hint placed last
  groups : ∀ level info dimension blockLength inner, Level placed level →
    .group info dimension blockLength inner ∈ level →
    ∃ inside, Stands 0 inner inside ∧ (blockLength.toInt = 0 ∨ inside ≤ blockLength.toInt) ∧
      info.computedBlockLength = max blockLength.toInt inside

theorem placed_of_run {hint : Int} {fields placed : List Field} {last : Layout} {log after : Log}
    (hlength : everywhere hasLength fields = true)
    (hrun : (placeAll hint {} fields).run log = ((placed, .ok last), after))
    (hcount : after.errorCount = log.errorCount) : Placed hint fields placed last.offset := by
  have hlaid := laid_of_errorCount hrun hcount
  have hplaced : everywhere hasLength placed = true := by
    rw [← everywhere_unplaced hasLength_unplaced, hlaid.allUnplaced_eq,
      everywhere_unplaced hasLength_unplaced, hlength]
  exact {
    same := hlaid.allUnplaced_eq
    stands := hlaid.settled.stands hplaced
    groups := by
      intro level info dimension blockLength inner hlevel hgroup
      obtain ⟨_, _, _, hsettled⟩ := hlaid.settled.of_level hlevel
      obtain ⟨inside, hinner, hfits, hblock⟩ := hsettled.group_of_mem hgroup
      refine ⟨inside.offset, hinner.stands ?_, ?_, hblock⟩
      · exact everywhere_level hplaced (hlevel.group hgroup)
      · exact (Decidable.em (blockLength.toInt = 0)).imp_right hfits }

/-- Groups two deep between fixed fields, a constant among them, and data. -/
def ledger : List Field :=
  [.plain { name := "account", id := 1 } (.ofPrimitive .uint32),
    .plain { name := "venue", id := 2, presence := .constant } (.ofPrimitive .char),
    .plain { name := "kind", id := 3, offset := 8 } (.ofPrimitive .uint16),
    .group { name := "legs", id := 4 } (.ofPrimitive .uint8) 12
      [.plain { name := "side", id := 5 } (.ofPrimitive .uint8),
        .plain { name := "price", id := 6 } (.ofPrimitive .int64),
        .group { name := "fills", id := 7 } (.ofPrimitive .uint8) 0
          [.plain { name := "size", id := 8 } (.ofPrimitive .uint64)],
        .data { name := "note", id := 9 } (.ofPrimitive .uint8)],
    .data { name := "text", id := 10, offset := 30 }
      (.encoded { name := "text" } { primitive := .char, isVariable := true })]

def faulty : Log := ⟨{ stopOnError := true }, [⟨.error, .invalidName "1st"⟩]⟩

/-- The outer group moves to the hint, the inner one does not. -/
theorem placed_ledger : everywhere hasLength ledger = true ∧ ∃ placed last after,
    (placeAll 24 {} ledger).run faulty = ((placed, .ok last), after) ∧
    after.errorCount = faulty.errorCount ∧
    placed.map (·.info.computedOffset) = [0, 4, 8, 24, -1] ∧
    Placed 24 ledger placed last.offset := by
  have hlength : everywhere hasLength ledger = true := by decide +kernel
  exact ⟨hlength, _, _, _, rfl, rfl, rfl, placed_of_run hlength rfl rfl⟩

end
end Field
end SimpleBinary
