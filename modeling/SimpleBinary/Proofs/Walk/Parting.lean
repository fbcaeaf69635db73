import SimpleBinary.Proofs.Schema.Earlier
import SimpleBinary.Proofs.Walk.Told
import SimpleBinary.Walk.Trace

/-! The walk over a message beside the walk over what an earlier version had of
it. A walk does not look at versions: the two are heard alike until the first
one comes to an element that is newer, and then it goes on with that element. -/
namespace SimpleBinary.Walk
open Generate
open Token (Whole maxCount recount)

section
variable {α β : Type} (buffer : List UInt8) (version : Int32)

/-- What is heard of a course: each notice with the value that belongs to it. -/
def Course.events (course : Course α) : List (Except WalkFault Event) :=
  course.notices.map (event buffer version)

theorem Course.events_andThen_ok {course : Course α} {next : α → Course β} {value : α}
    (h : course.outcome = .ok value) :
    (course.andThen next).events buffer version =
      course.events buffer version ++ (next value).events buffer version := by
  rw [Course.andThen_ok h]
  exact List.map_append

theorem Course.events_andThen_error {course : Course α} {next : α → Course β} {error : Error}
    (h : course.outcome = .error error) :
    (course.andThen next).events buffer version = course.events buffer version := by
  rw [Course.andThen_error h]
  rfl

theorem Course.events_prefix_andThen (course : Course α) (next : α → Course β) :
    course.events buffer version <+: (course.andThen next).events buffer version := by
  cases h : course.outcome with
  | ok value =>
    rw [events_andThen_ok buffer version h]
    exact List.prefix_append _ _
  | error error => simp only [events_andThen_error buffer version h, List.prefix_rfl]

/-- The first course is heard like the second one, or up to an element that
only the first one comes to, and then goes on with that element. -/
inductive Parts (only : Course Nat → Prop) (first second : Course α) : Prop where
  | alike : first.events buffer version = second.events buffer version →
      first.outcome = second.outcome → Parts only first second
  | parted (element : Course Nat) (common more : List (Except WalkFault Event)) :
      only element →
      first.events buffer version = common ++ (element.events buffer version ++ more) →
      (∀ error, element.outcome = .error error → more = [] ∧ first.outcome = .error error) →
      common <+: second.events buffer version → Parts only first second

variable {buffer version} {only : Course Nat → Prop}

theorem Parts.mono {wider : Course Nat → Prop} {first second : Course α}
    (h : Parts buffer version only first second) (himp : ∀ element, only element → wider element) :
    Parts buffer version wider first second := by
  cases h with
  | alike hevents houtcome => exact .alike hevents houtcome
  | parted element common more honly hevents herror hcommon =>
    exact .parted element common more (himp _ honly) hevents herror hcommon

theorem Parts.andThen {first second : Course α} {next other : α → Course β}
    (h : Parts buffer version only first second)
    (hnext : ∀ value, Parts buffer version only (next value) (other value)) :
    Parts buffer version only (first.andThen next) (second.andThen other) := by
  cases h with
  | alike hevents houtcome =>
    cases hfirst : first.outcome with
    | error error =>
      have hsecond : second.outcome = .error error := houtcome ▸ hfirst
      refine .alike ?_ ?_
      · rw [Course.events_andThen_error _ _ hfirst, Course.events_andThen_error _ _ hsecond,
          hevents]
      · rw [Course.andThen_error hfirst, Course.andThen_error hsecond]
    | ok value =>
      have hsecond : second.outcome = .ok value := houtcome ▸ hfirst
      cases hnext value with
      | alike hmore hend =>
        refine .alike ?_ ?_
        · rw [Course.events_andThen_ok _ _ hfirst, Course.events_andThen_ok _ _ hsecond,
            hevents, hmore]
        · rw [Course.andThen_ok hfirst, Course.andThen_ok hsecond]
          exact hend
      | parted element common more honly hmore herror hcommon =>
        refine .parted element (second.events buffer version ++ common) more honly ?_ ?_ ?_
        · rw [Course.events_andThen_ok _ _ hfirst, hevents, hmore, List.append_assoc]
        · rw [Course.andThen_ok hfirst]
          exact herror
        · rw [Course.events_andThen_ok _ _ hsecond]
          exact (List.prefix_append_right_inj _).mpr hcommon
  | parted element common more honly hevents herror hcommon =>
    have hbehind := hcommon.trans (second.events_prefix_andThen buffer version other)
    cases hfirst : first.outcome with
    | error error =>
      refine .parted element common more honly
        ((Course.events_andThen_error _ _ hfirst).trans hevents) ?_ hbehind
      intro cause hcause
      obtain ⟨hmore, houtcome⟩ := herror cause hcause
      rw [hfirst] at houtcome
      cases houtcome
      rw [Course.andThen_error hfirst]
      exact ⟨hmore, rfl⟩
    | ok value =>
      refine .parted element common (more ++ (next value).events buffer version) honly ?_ ?_ hbehind
      · rw [Course.events_andThen_ok _ _ hfirst, hevents, List.append_assoc, List.append_assoc]
      · intro cause hcause
        rw [(herror cause hcause).2] at hfirst
        cases hfirst

variable (buffer version only) in
def Beside (f g : ∀ σ : Type, Listener σ → Walking σ α) : Prop :=
  ∃ first second, Takes f first ∧ Takes g second ∧ Parts buffer version only first second

namespace Beside
variable {f g : ∀ σ : Type, Listener σ → Walking σ α}

theorem congr {f' g' : ∀ σ : Type, Listener σ → Walking σ α}
    (hf : ∀ (σ : Type) (listen : Listener σ), f σ listen = f' σ listen)
    (hg : ∀ (σ : Type) (listen : Listener σ), g σ listen = g' σ listen)
    (h : Beside buffer version only f' g') : Beside buffer version only f g := by
  obtain ⟨first, second, hfirst, hsecond, hparts⟩ := h
  exact ⟨first, second, hfirst.congr hf, hsecond.congr hg, hparts⟩

theorem mono {wider : Course Nat → Prop} (h : Beside buffer version only f g)
    (himp : ∀ element, only element → wider element) : Beside buffer version wider f g := by
  obtain ⟨first, second, hfirst, hsecond, hparts⟩ := h
  exact ⟨first, second, hfirst, hsecond, hparts.mono himp⟩

theorem refl {course : Course α} (h : Takes f course) : Beside buffer version only f f :=
  ⟨course, course, h, h, .alike rfl rfl⟩

theorem tell {notice other : Notice}
    (h : event buffer version notice = event buffer version other) :
    Beside buffer version only (fun _ listen => listen notice) (fun _ listen => listen other) :=
  ⟨_, _, .tell notice, .tell other, .alike (congrArg (fun told => [told]) h) rfl⟩

theorem bind {f' g' : α → ∀ σ : Type, Listener σ → Walking σ β}
    (h : Beside buffer version only f g)
    (hnext : ∀ value, Beside buffer version only (f' value) (g' value)) :
    Beside buffer version only (fun σ listen => f σ listen >>= fun value => f' value σ listen)
      (fun σ listen => g σ listen >>= fun value => g' value σ listen) := by
  obtain ⟨first, second, hfirst, hsecond, hparts⟩ := h
  obtain ⟨next, hnext⟩ := Classical.axiomOfChoice hnext
  obtain ⟨other, hother⟩ := Classical.axiomOfChoice hnext
  exact ⟨_, _, hfirst.bind fun value _ => (hother value).1,
    hsecond.bind fun value _ => (hother value).2.1, hparts.andThen fun value => (hother value).2.2⟩

theorem certain {result : Except WalkFault α} {f' g' : α → ∀ σ : Type, Listener σ → Walking σ β}
    (hnext : ∀ value, result = .ok value → Beside buffer version only (f' value) (g' value)) :
    Beside buffer version only
      (fun σ listen => Walk.certain result >>= fun value => f' value σ listen)
      (fun σ listen => Walk.certain result >>= fun value => g' value σ listen) := by
  cases result with
  | error fault => exact refl (.throw (.walk fault))
  | ok value => exact congr (fun _ _ => pure_bind _ _) (fun _ _ => pure_bind _ _) (hnext value rfl)

/-- The first walk comes to an element and then goes on like the second one. -/
theorem met {element : ∀ σ : Type, Listener σ → Walking σ Nat} {course : Course Nat}
    {f' : Nat → ∀ σ : Type, Listener σ → Walking σ β} {g : ∀ σ : Type, Listener σ → Walking σ β}
    (h : Takes element course) (honly : only course)
    (hnext : ∀ place, ∃ next, Takes (f' place) next) (hg : ∃ other, Takes g other) :
    Beside buffer version only
      (fun σ listen => element σ listen >>= fun place => f' place σ listen) g := by
  obtain ⟨next, hnext⟩ := Classical.axiomOfChoice hnext
  obtain ⟨other, hother⟩ := hg
  refine ⟨_, other, h.bind fun place _ => hnext place, hother, ?_⟩
  cases houtcome : course.outcome with
  | error error =>
    refine .parted course [] [] honly ?_ ?_ List.nil_prefix
    · rw [Course.events_andThen_error _ _ houtcome, List.append_nil, List.nil_append]
    · intro cause hcause
      rw [houtcome] at hcause
      cases hcause
      rw [Course.andThen_error houtcome]
      exact ⟨rfl, rfl⟩
  | ok place =>
    refine .parted course [] ((next place).events buffer version) honly ?_ ?_ List.nil_prefix
    · rw [Course.events_andThen_ok _ _ houtcome, List.nil_append]
    · intro cause hcause
      rw [houtcome] at hcause
      cases hcause

end Beside
end

/-- Two tokens for one element, in two runs. -/
structure Matches (token other : Token) : Prop where
  name : token.name = other.name
  encoding : token.encoding = other.encoding

theorem matches_of_isOpening {field earlier : Field} {token other : Token}
    (h : IsOpening field token) (hother : IsOpening earlier other)
    (hinfo : field.info = earlier.info) :
    Matches token other := by
  obtain ⟨_, htoken⟩ := h
  obtain ⟨_, hsame⟩ := hother
  rw [hinfo] at htoken
  exact ⟨(congrArg Token.name htoken).trans (congrArg Token.name hsame).symm,
    (congrArg Token.encoding htoken).trans (congrArg Token.encoding hsame).symm⟩

section
variable {buffer : List UInt8} {version : Int32} {only : Course Nat → Prop} {order : ByteOrder}

theorem beside_walkType {owner other : Token} (howner : Matches owner other) {type : DataType}
    {offset : Int} {field : Option FieldInfo}
    (hlength : (typeTokens order offset field type).length ≤ maxCount) (place : Nat) :
    Beside buffer version only
      (fun _ listen => walkType listen owner place (recount (typeTokens order offset field type)))
      (fun _ listen => walkType listen other place
        (recount (typeTokens order offset field type))) := by
  cases type with
  | encoded info type =>
    rw [typeTokens, Token.recount_leaf rfl rfl .nil]
    refine .tell ?_
    rw [event, event, howner.name]
  | enum info type =>
    rw [typeTokens] at hlength ⊢
    obtain ⟨last, hrun, -⟩ :=
      exists_bracketedRun rfl (nested_namedTokens order rfl rfl _ type.values) hlength
    unfold enumTokens
    rw [hrun]
    refine .tell ?_
    rw [event, event, enumEvent, enumEvent, Token.isConstant, Token.isConstant, howner.name,
      howner.encoding]
  | set info type =>
    rw [typeTokens] at hlength ⊢
    obtain ⟨last, hrun, -⟩ :=
      exists_bracketedRun rfl (nested_namedTokens order rfl rfl _ type.choices) hlength
    unfold setTokens
    rw [hrun]
    refine .tell ?_
    rw [event, event, howner.name]
  | composite info members =>
    rw [typeTokens] at hlength ⊢
    obtain ⟨last, hrun, -⟩ :=
      exists_bracketedRun rfl (nested_memberTokens order members 0) hlength
    have hinside : (memberTokens order 0 members).length ≤ maxCount := by
      rw [length_bracketed] at hlength
      omega
    obtain ⟨course, hcourse, -⟩ := obeys_members order members 0 hinside place last
    rw [hrun]
    refine .congr (fun _ listen => composite.eq_2 ..) (fun _ listen => composite.eq_2 ..) ?_
    refine .bind (.tell ?_) fun _ => .bind (.refl hcourse) fun _ => .tell ?_
    · rw [event, event, howner.name]
    · rw [event, event, howner.name]

theorem beside_fields {plains : List Field} (hplains : ∀ field ∈ plains, field.isPlain = true)
    {tail other : List Token} (htail : Token.lead? tail ≠ some .beginField)
    (hother : Token.lead? other ≠ some .beginField) (starts origins : List Nat) (index : Nat)
    {base origin : Nat} (hlength : (wrapped order starts base plains).length ≤ maxCount)
    (hsame : (wrapped order origins origin plains).length ≤ maxCount) :
    Beside buffer version only
      (fun _ listen => fields listen index (recount (wrapped order starts base plains) ++ tail))
      (fun _ listen =>
        fields listen index (recount (wrapped order origins origin plains) ++ other)) := by
  induction plains generalizing base origin with
  | nil =>
    rw [wrapped_nil, wrapped_nil]
    exact .congr (fun _ listen => fields_of_lead?_ne listen index htail)
      (fun _ listen => fields_of_lead?_ne listen index hother) (.refl (.pure ()))
  | cons plain rest ih =>
    obtain ⟨token, last, next, hrun, hwhole, hsignal, -, hinside, hrest⟩ :=
      exists_fieldRun order starts base plain rest hlength
    obtain ⟨token', last', next', hrun', hwhole', hsignal', -, -, hrest'⟩ :=
      exists_fieldRun order origins origin plain rest hsame
    have hmatches := matches_of_isOpening (isOpening_of_recount hrun) (isOpening_of_recount hrun')
      rfl
    have hothers := ih (fun field hfield => hplains field (List.mem_cons_of_mem _ hfield))
      hrest hrest'
    have hkind := hplains plain List.mem_cons_self
    cases plain with
    | group => cases hkind
    | data => cases hkind
    | plain info type =>
      rw [body] at hrun hwhole hinside hrun' hwhole'
      obtain ⟨first, inside, htype, -⟩ := exists_typeRun order type info.computedOffset info hinside
      have hfirst : ∀ place, Beside buffer version only _ _ := fun place =>
        beside_walkType hmatches hinside place
      rw [htype] at hrun hwhole hrun' hwhole' hfirst
      rw [hrun, hrun', List.append_assoc, List.append_assoc]
      refine .congr (fun _ listen => fields_append listen index hwhole hsignal _)
        (fun _ listen => fields_append listen index hwhole' hsignal' _) ?_
      refine .bind (.congr (fun _ listen => field_bracketed listen index token)
        (fun _ listen => field_bracketed listen index token') ?_) fun _ => hothers
      exact .certain fun offset _ => hfirst _

/-- The walk over one group or one data element. -/
def walkElement {σ : Type} (listen : Listener σ) (buffer : List UInt8) (index : Nat) (field : Field)
    (run : List Token) : Walking σ Nat :=
  match field with
  | .plain .. => pure index
  | .group .. => groups listen buffer index run
  | .data .. => data listen buffer index run

/-- The course of an element that came later, wherever it is looked for. -/
def IsNewer (order : ByteOrder) (buffer : List UInt8) (version : Int32) (fields : List Field)
    (course : Course Nat) : Prop :=
  ∃ field starts base index, Field.Within fields field ∧ field.isNewer version = true ∧
    Takes (fun _ listen =>
      walkElement listen buffer index field (recount (wrapped order starts base [field]))) course

theorem IsNewer.mono {fields wider : List Field} {course : Course Nat}
    (h : IsNewer order buffer version fields course)
    (himp : ∀ field, Field.Within fields field → Field.Within wider field) :
    IsNewer order buffer version wider course := by
  obtain ⟨field, starts, base, index, hwithin, hrest⟩ := h
  exact ⟨field, starts, base, index, himp field hwithin, hrest⟩

theorem data_bind {σ : Type} (listen : Listener σ) (index : Nat) {stretch : List Token}
    (hwhole : Whole stretch) (hlead : Token.lead? stretch = some .beginVarData)
    (tail : List Token) :
    data listen buffer index (stretch ++ tail) = (do
      let next ← data listen buffer index stretch
      data listen buffer next tail) := by
  obtain ⟨token, rest, rfl, hcount⟩ := hwhole
  have hsignal : token.signal = .beginVarData := Option.some.inj hlead
  have halone := data_append listen buffer index ⟨token, rest, rfl, hcount⟩ hsignal []
  rw [List.append_nil] at halone
  rw [data_append listen buffer index ⟨token, rest, rfl, hcount⟩ hsignal, halone]
  have hnil : ∀ place, data listen buffer place [] = pure place :=
    fun place => data_of_lead?_ne listen buffer place stops_nil.2.2
  simp only [bind_assoc, hnil]
  refine bind_congr fun _ => bind_congr fun length => bind_congr fun content =>
    bind_congr fun offset => ?_
  split
  · simp only [bind_assoc, pure_bind]
  · simp only [bind_assoc, pure_bind]

theorem groups_bind {σ : Type} (listen : Listener σ) (index : Nat) {stretch : List Token}
    (hwhole : Whole stretch) (hlead : Token.lead? stretch = some .beginGroup) (tail : List Token) :
    groups listen buffer index (stretch ++ tail) = (do
      let next ← groups listen buffer index stretch
      groups listen buffer next tail) := by
  obtain ⟨token, rest, rfl, hcount⟩ := hwhole
  have hsignal : token.signal = .beginGroup := Option.some.inj hlead
  have halone := groups_append listen buffer index ⟨token, rest, rfl, hcount⟩ hsignal []
  rw [List.append_nil] at halone
  have hnil : ∀ place, groups listen buffer place [] = pure place :=
    fun place => groups_of_lead?_ne listen buffer place stops_nil.2.1
  rw [groups_append listen buffer index ⟨token, rest, rfl, hcount⟩ hsignal, halone]
  simp only [bind_assoc, hnil, pure_bind]

/-- The run of the first field in front of the run of the others. -/
theorem exists_elementRun (order : ByteOrder) (starts : List Nat) (base : Nat) (field : Field)
    (rest : List Field) (hlength : (wrapped order starts base (field :: rest)).length ≤ maxCount) :
    ∃ next, recount (wrapped order starts base (field :: rest)) =
        recount (wrapped order starts base [field]) ++ recount (wrapped order starts next rest) ∧
      Whole (recount (wrapped order starts base [field])) ∧
      Token.lead? (recount (wrapped order starts base [field])) = some (opens field) ∧
      (wrapped order starts base [field]).length ≤ maxCount ∧
      (wrapped order starts next rest).length ≤ maxCount := by
  have hsplit : wrapped order starts base (field :: rest) =
      wrapped order starts base [field] ++ _ :=
    wrapped_append order starts [field] rest base
  rw [hsplit, List.length_append] at hlength
  have halone := Nat.le_trans (Nat.le_add_right _ _) hlength
  obtain ⟨token, last, next, hrun, hwhole, hsignal, -⟩ :=
    exists_fieldRun order starts base field [] halone
  rw [wrapped_nil] at hrun
  change recount (wrapped order starts base [field]) = token :: (_ ++ [last]) ++ [] at hrun
  rw [List.append_nil] at hrun
  refine ⟨_, ?_, hrun ▸ hwhole, ?_, halone, Nat.le_trans (Nat.le_add_left _ _) hlength⟩
  · rw [hsplit, Token.recount_append (nested_wrapped order _ _ _) (nested_wrapped order _ _ _)]
  · rw [hrun]
    exact congrArg some hsignal

variable {types : Table String DataType} {schemaVersion : Int32}

theorem exists_dataMembers (order : ByteOrder) {info : FieldInfo} {type : DataType}
    (hvalid : (Field.data info type).Valid types schemaVersion) :
    ∃ length content, ∀ (tail : List Token) (owner : Token),
      member (recount (typeTokens order info.computedOffset info type) ++ tail) "length" owner =
        .ok length ∧
      member (recount (typeTokens order info.computedOffset info type) ++ tail) "varData" owner =
        .ok content := by
  obtain ⟨content, hcontent⟩ : ∃ content, IsContent order info type content :=
    exists_isContent hvalid
  cases hvalid with
  | data _ _ _ hlength _ =>
    rw [DataType.asVarData_composite] at hcontent ⊢
    obtain ⟨_, hmeasure, -⟩ := hlength.freed
    obtain ⟨length, hfound⟩ := exists_found order (Option.isSome_of_eq_some hmeasure)
      info.computedOffset info _
    exact ⟨length, content, fun tail owner =>
      ⟨member_append hfound tail owner, member_append hcontent tail owner⟩⟩

/-- Data elements are heard alike up to the first one that is newer. -/
theorem beside_data {fields : List Field}
    (hvalid : ∀ field ∈ fields, field.Valid types schemaVersion)
    (hdata : ∀ field ∈ fields, field.isData = true) {tail other : List Token}
    (htail : Token.lead? tail ≠ some .beginVarData)
    (hother : Token.lead? other ≠ some .beginVarData)
    (starts origins : List Nat) (index : Nat) {base origin : Nat}
    (hlength : (wrapped order starts base fields).length ≤ maxCount)
    (hsame : (wrapped order origins origin (Field.earlierAll version fields)).length ≤ maxCount) :
    Beside buffer version (IsNewer order buffer version fields)
      (fun _ listen => data listen buffer index
        (recount (wrapped order starts base fields) ++ tail))
      (fun _ listen => data listen buffer index
        (recount (wrapped order origins origin (Field.earlierAll version fields)) ++ other)) := by
  induction fields generalizing base origin index with
  | nil =>
    rw [Field.earlierAll_nil, wrapped_nil, wrapped_nil]
    exact .congr (fun _ listen => data_of_lead?_ne listen buffer index htail)
      (fun _ listen => data_of_lead?_ne listen buffer index hother) (.refl (.pure index))
  | cons field rest ih =>
    have hvalidRest := fun other hother => hvalid other (List.mem_cons_of_mem field hother)
    have hdataRest := fun other hother => hdata other (List.mem_cons_of_mem field hother)
    have hwider : ∀ course, IsNewer order buffer version rest course →
        IsNewer order buffer version (field :: rest) course :=
      fun course h => h.mono fun other hother => hother.mono fun _ => List.mem_cons_of_mem field
    have hkind := hdata field List.mem_cons_self
    cases field with
    | plain => cases hkind
    | group => cases hkind
    | data info type =>
      by_cases hnewer : (Field.data info type).isNewer version = true
      · obtain ⟨next, hrun, hwhole, hlead, halone, hrest⟩ :=
          exists_elementRun order starts base _ rest hlength
        rw [Field.earlierAll_of_newer hnewer] at hsame ⊢
        have hothers := fun place => ih hvalidRest hdataRest place hrest hsame
        obtain ⟨course, hcourse, -⟩ := obeys_data starts buffer stops_nil.2.2
          (fun other hother => hvalid other (List.mem_singleton.mp hother ▸ List.mem_cons_self))
          (by simp [Field.isData]) halone index
        rw [List.append_nil] at hcourse
        rw [hrun, List.append_assoc]
        refine .congr (fun _ listen => data_bind listen index hwhole hlead _) (fun _ _ => rfl) ?_
        obtain ⟨_, other, -, hsecond, -⟩ := hothers index
        refine .met hcourse ⟨_, starts, base, index, .here List.mem_cons_self, hnewer, hcourse⟩
          (fun place => ?_) ⟨other, hsecond⟩
        obtain ⟨first, _, hfirst, -⟩ := hothers place
        exact ⟨first, hfirst⟩
      · rw [Field.earlierAll_of_not_newer hnewer, Field.earlier] at hsame ⊢
        obtain ⟨token, last, next, hrun, hwhole, hsignal, -, -, hrest⟩ :=
          exists_fieldRun order starts base _ rest hlength
        obtain ⟨token', last', next', hrun', hwhole', hsignal', -, -, hrest'⟩ :=
          exists_fieldRun order origins origin _ _ hsame
        have hmatches := matches_of_isOpening (isOpening_of_recount hrun)
          (isOpening_of_recount hrun') rfl
        have hothers := fun place => (ih hvalidRest hdataRest place hrest hrest').mono hwider
        obtain ⟨length, content, hmembers⟩ :=
          exists_dataMembers order (hvalid _ List.mem_cons_self)
        rw [body] at hrun hwhole hrun' hwhole'
        rw [hrun, hrun', List.append_assoc, List.append_assoc]
        refine .congr (fun _ listen => data_append listen buffer index hwhole hsignal _)
          (fun _ listen => data_append listen buffer index hwhole' hsignal' _) ?_
        rw [(hmembers [last] token).1, (hmembers [last] token).2, (hmembers [last'] token').1,
          (hmembers [last'] token').2, hmatches.name]
        refine .certain fun _ _ => .certain fun length _ => .certain fun content _ =>
          .certain fun offset _ => ?_
        split
        · exact .refl (.throw _)
        · refine .bind (.tell ?_) fun _ => hothers _
          rw [event, event, hmatches.name]

theorem dimension_congr {run : List Token} (hwhole : Whole run) {group other : Token}
    (hname : group.name = other.name) (index : Nat) (body inside : List Token)
    (first opening last closing : Token) :
    dimension buffer index group (first :: (run ++ body ++ [last])) =
      dimension buffer index other (opening :: (run ++ inside ++ [closing])) := by
  have hbody := component_append hwhole body
  have hinside := component_append hwhole inside
  obtain ⟨token, rest, rfl, -⟩ := hwhole
  rw [List.cons_append] at hbody hinside
  unfold dimension
  rw [Token.inner_bracketed, Token.inner_bracketed, List.cons_append, List.cons_append]
  dsimp only
  rw [hbody, hinside]
  unfold member advance
  rw [hname]
  rfl

theorem exists_takes_groups (buffer : List UInt8) {fields : List Field}
    (hvalid : ∀ field ∈ fields, field.Valid types schemaVersion)
    (hgroups : ∀ field ∈ fields, field.isGroup = true) (starts : List Nat) {base : Nat}
    (hlength : (wrapped order starts base fields).length ≤ maxCount) (index : Nat) :
    ∃ course, Takes (fun _ listen =>
      groups listen buffer index (recount (wrapped order starts base fields))) course := by
  obtain ⟨course, hcourse, -⟩ := obeys_groups starts buffer stops_nil.2.1 hvalid hgroups (by
    intro info dimension declared inner hmem innerStarts innerBase hinner
    cases hvalid _ hmem with
    | group _ _ _ _ hinside hsiblings =>
      refine obeys_entries hinside fun index start => ?_
      have hobeys := obeys_inside buffer hinside hsiblings hinner stops_nil index start
      rwa [List.append_nil] at hobeys) hlength index
  rw [List.append_nil] at hcourse
  exact ⟨course, hcourse⟩

/-- Entries are heard alike if what is inside them is. -/
theorem beside_entries {run other : List Token} {owner same : Token} (hmatches : Matches owner same)
    (hinside : ∀ index start, Beside buffer version only
      (fun _ listen => inside listen buffer index start run)
      (fun _ listen => inside listen buffer index start other))
    (blockLength total left index : Nat) :
    Beside buffer version only
      (fun _ listen => entries listen buffer owner run blockLength total left index)
      (fun _ listen => entries listen buffer same other blockLength total left index) := by
  induction left generalizing index with
  | zero =>
    exact .congr (fun _ listen => entries.eq_1 ..) (fun _ listen => entries.eq_1 ..)
      (.refl (.pure index))
  | succ left ih =>
    have hadvance : advance buffer index blockLength owner =
        advance buffer index blockLength same := by
      rw [advance, advance, hmatches.name]
    refine .congr (fun _ listen => entries_inside listen ..)
      (fun _ listen => entries_inside listen ..) ?_
    rw [hadvance]
    refine .bind (.tell ?_) fun _ => .bind (hinside _ _) fun next => .bind (.tell ?_)
      fun _ => ih next
    · rw [event, event, hmatches.name]
    · rw [event, event, hmatches.name]

/-- Groups are heard alike up to the first element, at any depth, that is
newer. -/
theorem beside_groups {fields : List Field}
    (hvalid : ∀ field ∈ fields, field.Valid types schemaVersion)
    (hgroups : ∀ field ∈ fields, field.isGroup = true)
    (hinside : ∀ info dimension declared inner, .group info dimension declared inner ∈ fields →
      ∀ starts base origins origin, (wrapped order starts base inner).length ≤ maxCount →
      (wrapped order origins origin (Field.earlierAll version inner)).length ≤ maxCount →
      ∀ index start, Beside buffer version (IsNewer order buffer version inner)
        (fun _ listen => inside listen buffer index start
          (recount (wrapped order starts base inner)))
        (fun _ listen => inside listen buffer index start
          (recount (wrapped order origins origin (Field.earlierAll version inner)))))
    {tail other : List Token} (htail : Token.lead? tail ≠ some .beginGroup)
    (hother : Token.lead? other ≠ some .beginGroup) (starts origins : List Nat) (index : Nat)
    {base origin : Nat} (hlength : (wrapped order starts base fields).length ≤ maxCount)
    (hsame : (wrapped order origins origin (Field.earlierAll version fields)).length ≤ maxCount) :
    Beside buffer version (IsNewer order buffer version fields)
      (fun _ listen =>
        groups listen buffer index (recount (wrapped order starts base fields) ++ tail))
      (fun _ listen => groups listen buffer index
        (recount (wrapped order origins origin (Field.earlierAll version fields)) ++ other)) := by
  induction fields generalizing base origin index with
  | nil =>
    rw [Field.earlierAll_nil, wrapped_nil, wrapped_nil]
    exact .congr (fun _ listen => groups_of_lead?_ne listen buffer index htail)
      (fun _ listen => groups_of_lead?_ne listen buffer index hother) (.refl (.pure index))
  | cons field rest ih =>
    have hothers := ih (fun other hother => hvalid other (List.mem_cons_of_mem field hother))
      (fun other hother => hgroups other (List.mem_cons_of_mem field hother))
      (fun info dimension declared inner hmem =>
        hinside info dimension declared inner (List.mem_cons_of_mem field hmem))
    have hwider : ∀ course, IsNewer order buffer version rest course →
        IsNewer order buffer version (field :: rest) course :=
      fun course h => h.mono fun other hother => hother.mono fun _ => List.mem_cons_of_mem field
    have hkind := hgroups field List.mem_cons_self
    cases field with
    | plain => cases hkind
    | data => cases hkind
    | group info dimension declared inner =>
      by_cases hnewer : (Field.group info dimension declared inner).isNewer version = true
      · obtain ⟨next, hrun, hwhole, hlead, halone, hrest⟩ :=
          exists_elementRun order starts base _ rest hlength
        rw [Field.earlierAll_of_newer hnewer] at hsame ⊢
        obtain ⟨course, hcourse⟩ := exists_takes_groups buffer
          (fun other hother => hvalid other (List.mem_singleton.mp hother ▸ List.mem_cons_self))
          (by simp [Field.isGroup]) starts halone index
        rw [hrun, List.append_assoc]
        refine .congr (fun _ listen => groups_bind listen index hwhole hlead _) (fun _ _ => rfl) ?_
        obtain ⟨_, other, -, hsecond, -⟩ := hothers index hrest hsame
        refine .met hcourse ⟨_, starts, base, index, .here List.mem_cons_self, hnewer, hcourse⟩
          (fun place => ?_) ⟨other, hsecond⟩
        obtain ⟨first, _, hfirst, -⟩ := hothers place hrest hsame
        exact ⟨first, hfirst⟩
      · rw [Field.earlierAll_of_not_newer hnewer, Field.earlier] at hsame ⊢
        obtain ⟨token, last, next, innerStarts, innerBase, hrun, hwhole, htype, hsignal, -, -,
          hinner, hrest⟩ := exists_groupRun order starts base info dimension declared inner
            rest hlength
        obtain ⟨token', last', next', innerStarts', innerBase', hrun', hwhole', -, hsignal', -, -,
          hinner', hrest'⟩ := exists_groupRun order origins origin info dimension declared _ _ hsame
        have hmatches := matches_of_isOpening (isOpening_of_recount hrun)
          (isOpening_of_recount hrun') rfl
        have hdeeper : ∀ course, IsNewer order buffer version inner course →
            IsNewer order buffer version (.group info dimension declared inner :: rest) course :=
          fun course h => h.mono fun other hother => .inside List.mem_cons_self hother
        have hentries := fun size : Dimension => beside_entries hmatches
          (fun index start => (hinside info dimension declared inner List.mem_cons_self _ _ _ _
            hinner hinner' index start).mono hdeeper)
          size.blockLength size.entries size.entries size.start
        rw [hrun, hrun', List.append_assoc (token :: _), List.append_assoc (token' :: _)]
        refine .congr (fun _ listen => groups_append listen buffer index hwhole hsignal _)
          (fun _ listen => groups_append listen buffer index hwhole' hsignal' _) ?_
        rw [dimension_congr htype hmatches.name index _ _ token token' last last',
          Token.groupBody_bracketed _ _ htype, Token.groupBody_bracketed _ _ htype]
        refine .certain fun size _ => .bind (.tell ?_) fun _ => .bind (hentries size) fun place =>
          (hothers place hrest hrest').mono hwider
        rw [event, event, hmatches.name]

/-- The plain fields, the groups and the data are heard alike up to the first
element, at any depth, that is newer. -/
theorem beside_inside {fields : List Field} :
    ∀ {starts origins : List Nat} {base origin : Nat} {last other : List Token},
    (∀ field ∈ fields, field.Valid types schemaVersion) → Field.Siblings fields →
    (wrapped order starts base fields).length ≤ maxCount →
    (wrapped order origins origin (Field.earlierAll version fields)).length ≤ maxCount →
    Stops last → Stops other → ∀ (index : Nat) (start : Except WalkFault Nat),
    Beside buffer version (IsNewer order buffer version fields)
      (fun _ listen =>
        inside listen buffer index start (recount (wrapped order starts base fields) ++ last))
      (fun _ listen => inside listen buffer index start
        (recount (wrapped order origins origin (Field.earlierAll version fields)) ++ other)) := by
  induction fields using Field.nesting with
  | step fields ih =>
    intro starts origins base origin last other hvalid hsiblings hlength hsame hlast hother
      index start
    obtain ⟨second, third, hsplit⟩ := exists_split order starts hsiblings hlength last
    obtain ⟨second', third', hsplit'⟩ := exists_split order origins hsiblings.earlierAll hsame other
    have hkept : ∀ (kind : Field → Bool) (course : Course Nat),
        IsNewer order buffer version (fields.filter kind) course →
        IsNewer order buffer version fields course := fun kind course h =>
      h.mono fun field hfield => hfield.mono fun _ hmem => (List.mem_filter.mp hmem).1
    have hplains' := hsplit'.plains
    have hgroups' := hsplit'.groups
    have hdata' := hsplit'.data
    have hnoFields := hsplit'.lead?_groups hother
    have hnoGroups := hsplit'.lead?_data hother.2.1 (by decide)
    unfold inside
    rw [hsplit.skip_fields hlast, hsplit.skip_groups hlast, hsplit.run, hsplit'.skip_fields hother,
      hsplit'.skip_groups hother, hsplit'.run]
    rw [Field.filter_isPlain_earlierAll] at hplains' ⊢
    rw [Field.filter_earlierAll Field.isGroup_earlier] at hgroups' hnoFields ⊢
    rw [Field.filter_earlierAll Field.isData_earlier] at hdata' hnoFields hnoGroups ⊢
    refine .bind (beside_fields (fun field hfield => (List.mem_filter.mp hfield).2)
      (hsplit.lead?_groups hlast) hnoFields starts origins index hsplit.plains hplains') fun _ =>
      .certain fun next _ => .bind (.mono ?_ (hkept Field.isGroup)) fun next =>
        .mono ?_ (hkept Field.isData)
    · refine beside_groups (fun field hfield => hvalid field (List.mem_filter.mp hfield).1)
        (fun field hfield => (List.mem_filter.mp hfield).2) ?_
        (hsplit.lead?_data hlast.2.1 (by decide)) hnoGroups starts origins next
        hsplit.groups hgroups'
      intro info dimension declared inner hmem innerStarts innerBase others inside hinner hinner'
        index start
      have hmember := (List.mem_filter.mp hmem).1
      cases hvalid _ hmember with
      | group _ _ _ _ hvalidInside hsiblingsInside =>
        have hbeside := ih info _ declared inner hmember hvalidInside hsiblingsInside hinner hinner'
          stops_nil stops_nil index start
        rwa [List.append_nil, List.append_nil] at hbeside
    · exact beside_data (fun field hfield => hvalid field (List.mem_filter.mp hfield).1)
        (fun field hfield => (List.mem_filter.mp hfield).2) hlast.2.2 hother.2.2 starts origins next
        hsplit.data hdata'

theorem length_messageTokens_earlier (order : ByteOrder) (message : Message) (version : Int32) :
    (messageTokens order (message.earlier version)).length ≤
      (messageTokens order message).length := by
  rw [messageTokens_eq, messageTokens_eq,
    Token.length_recount (nested_bracketed rfl (nested_messageFields order message)),
    Token.length_recount (nested_bracketed rfl
      (nested_messageFields order (message.earlier version))),
    length_bracketed, length_bracketed]
  exact Nat.add_le_add_right (length_wrapped_earlierAll order version message.fields _ _ 1 1) 2

/-- A message is heard like its earlier version, up to the first element that
is newer. -/
theorem beside_message {message : Message} (hrow : Field.Row types schemaVersion message.fields)
    (hlength : (messageTokens order message).length ≤ maxCount) (offset blockLength : Nat) :
    Beside buffer version (IsNewer order buffer version message.fields)
      (fun _ listen => Walk.message listen buffer offset blockLength (messageTokens order message))
      (fun _ listen => Walk.message listen buffer offset blockLength
        (messageTokens order (message.earlier version))) := by
  have hsame := Nat.le_trans (length_messageTokens_earlier order message version) hlength
  obtain ⟨token, last, -, hname, hid, hlastName, hsignal, hstops, hinside, hwalk⟩ :=
    exists_messageWalk hrow.siblings hlength offset blockLength
  obtain ⟨token', last', -, hname', hid', hlastName', hsignal', hstops', hinside', hwalk'⟩ :=
    exists_messageWalk (hrow.siblings.earlierAll : Field.Siblings (message.earlier version).fields)
      hsame offset blockLength
  refine .congr (fun _ listen => hwalk buffer listen) (fun _ listen => hwalk' buffer listen) ?_
  refine .bind (.tell ?_) fun _ => .bind
    (beside_inside hrow.valid hrow.siblings hinside hinside' hstops hstops' _ _) fun next =>
      .bind (.tell ?_) fun _ => .refl (.pure next)
  · rw [event, event, hname, hname', hid, hid']
    rfl
  · rw [event, event, hlastName, hlastName', hsignal, hsignal']
    rfl

end

/-- The walk over a message of an accepted schema beside that over what a
version had of it: heard alike to the same end, or up to an element that the
version did not have. -/
theorem message_earlier {document : String} {policy : Policy} {schema : Schema} {message : Message}
    (hparse : Schema.parse document policy = .ok schema)
    (hmessage : message ∈ schema.messages.values)
    (hlength : (messageTokens schema.byteOrder message).length ≤ maxCount) (buffer : List UInt8)
    (offset blockLength : Nat) (version : Int32) :
    ∃ first second,
      Takes (fun _ listen => Walk.message listen buffer offset blockLength
        (messageTokens schema.byteOrder message)) first ∧
      Takes (fun _ listen => Walk.message listen buffer offset blockLength
        (messageTokens schema.byteOrder (message.earlier version))) second ∧
      Parts buffer version (IsNewer schema.byteOrder buffer version message.fields) first second :=
  beside_message ((Schema.valid_of_parse hparse).message hmessage).row hlength offset blockLength

/-- A number, and a group that came with version 1. -/
def grown : String :=
  Schema.withHeader "<messageSchema package='p' id='7' version='1'><types>"
    "<composite name='size'><type name='blockLength' primitiveType='uint16'/>
    <type name='numInGroup' primitiveType='uint16'/></composite></types><message name='M' id='1'>
    <field name='x' id='2' type='uint8'/>
    <group name='g' id='3' dimensionType='size' sinceVersion='1'>
    <field name='y' id='4' type='uint8'/></group></message></messageSchema>"

/-- The number alone, and the number with an empty group behind it. -/
def grownContent : Content := .mk [5] [] []

def grownWhole : Content := .mk [5] [.mk [0, 0, 0, 0] 0 []] []

/-- A simple message of a number and a newer group, which has room for a number
with other bytes behind it, and for the same bytes as an empty group. -/
def growsBehind (pair : Schema × Message) : Bool :=
  let order := pair.1.byteOrder
  let fields := pair.2.fields
  Field.everywhere Field.isSimple fields && Field.everywhere Field.hasFixedLength fields &&
    (messageTokens order pair.2).length ≤ maxCount && grownWhole.fits order fields &&
    grownWhole.between order fields [] [] = [5, 0, 0, 0, 0] &&
    grownContent.fits order (Field.earlierAll 0 fields) &&
    grownContent.between order (Field.earlierAll 0 fields) [] [0, 0, 0, 0] = [5, 0, 0, 0, 0] &&
    match fields with
    | [.plain _ _, .group info _ _ _] => 0 < info.sinceVersion
    | _ => false

theorem growsBehind_grown : (onlyMessage? grown).any growsBehind = true := by
  rw [onlyMessage?, grown, Schema.parse_withHeader String.toList_ofList String.toList_ofList]
  decide +kernel

theorem message_earlier_grown :
    ∃ schema message, Schema.parse grown {} = .ok schema ∧ message ∈ schema.messages.values ∧
      (messageTokens schema.byteOrder message).length ≤ maxCount ∧
      ∃ first second,
        Takes (fun _ listen => Walk.message listen [5, 0, 0, 0, 0] 0 1
          (messageTokens schema.byteOrder message)) first ∧
        Takes (fun _ listen => Walk.message listen [5, 0, 0, 0, 0] 0 1
          (messageTokens schema.byteOrder (message.earlier 0))) second ∧
        Parts [5, 0, 0, 0, 0] 0 (IsNewer schema.byteOrder [5, 0, 0, 0, 0] 0 message.fields) first
          second := by
  obtain ⟨schema, message, hparse, hmessage, hgrows⟩ := exists_of_onlyMessage? growsBehind_grown
  simp only [growsBehind, Bool.and_eq_true, decide_eq_true_eq] at hgrows
  have hlength := hgrows.1.1.1.1.1.2
  exact ⟨schema, message, hparse, hmessage, hlength,
    message_earlier hparse hmessage hlength [5, 0, 0, 0, 0] 0 1 0⟩

/-- A group that came later is read from whatever is behind the earlier
message. -/
theorem message_reads_newer :
    ∃ schema message, Schema.parse grown {} = .ok schema ∧ message ∈ schema.messages.values ∧
      ((Walk.message silent [5, 0, 0, 0, 0] 0 1
        (messageTokens schema.byteOrder message)).run.run ()).1 = .ok 5 ∧
      ((Walk.message silent [5, 0, 0, 0, 0] 0 1
        (messageTokens schema.byteOrder (message.earlier 0))).run.run ()).1 = .ok 1 := by
  obtain ⟨schema, message, hparse, hmessage, hgrows⟩ := exists_of_onlyMessage? growsBehind_grown
  simp only [growsBehind, Bool.and_eq_true, decide_eq_true_eq] at hgrows
  obtain ⟨⟨⟨⟨⟨⟨⟨hsimple, hfixed⟩, hlength⟩, hwhole⟩, hbuffer⟩, hfits⟩, hsame⟩, hshape⟩ := hgrows
  obtain ⟨hready, hsiblings⟩ := (Schema.valid_of_parse hparse).ready hmessage hsimple hfixed
  have hearlier : ∀ field ∈ (message.earlier 0).fields,
      Field.Ready schema.types schema.version field := by
    split at hshape
    · next info type group dimension declared inner hfields =>
      have hnewer : (Field.group group dimension declared inner).isNewer 0 = true := hshape
      rw [Message.earlier, hfields, Field.earlierAll_of_not_newer (by simp [Field.isNewer]),
        Field.earlierAll_of_newer hnewer, Field.earlierAll_nil, Field.earlier]
      intro field hfield
      exact hready field (hfields ▸ List.mem_cons.mpr (.inl (List.mem_singleton.mp hfield)))
    · cases hshape
  have hshorter := Nat.le_trans (length_messageTokens_earlier schema.byteOrder message 0) hlength
  have hbytes : ([5, 0, 0, 0, 0] : List UInt8) =
      [] ++ (grownWhole.wire schema.byteOrder message.fields ++ []) := hbuffer.symm
  have hbytes' : ([5, 0, 0, 0, 0] : List UInt8) =
      [] ++ (grownContent.wire schema.byteOrder (message.earlier 0).fields ++ [0, 0, 0, 0]) :=
    hsame.symm
  have hend : ([] : List UInt8).length + (grownWhole.wire schema.byteOrder message.fields).length
      = 5 := by
    have hlengths := congrArg List.length hbytes
    simp only [List.length_append, List.length_cons, List.length_nil] at hlengths ⊢
    omega
  have hend' : ([] : List UInt8).length +
      (grownContent.wire schema.byteOrder (message.earlier 0).fields).length = 1 := by
    have hlengths := congrArg List.length hbytes'
    simp only [List.length_append, List.length_cons, List.length_nil] at hlengths ⊢
    omega
  have hreturns := (reports_message silent _ hready hsiblings hlength hwhole hbytes).returns
    willing_silent ()
  have hreturns' := (reports_message silent _ hearlier hsiblings.earlierAll hshorter hfits
    hbytes').returns willing_silent ()
  rw [hend] at hreturns
  rw [hend'] at hreturns'
  exact ⟨schema, message, hparse, hmessage, hreturns, hreturns'⟩

end SimpleBinary.Walk
