import SimpleBinary.Proofs.Walk.Numbers

/-! The walk over a whole message. Each group, each entry of a group and what
is inside it end where the next one starts. -/
namespace SimpleBinary.Walk
open Generate
open Token (Whole maxCount recount)

section
variable {σ : Type} (listen : Listener σ) (buffer : List UInt8)

theorem skip_wrapped (order : ByteOrder) (starts : List Nat) {signal : Signal} {tail : List Token}
    (htail : Token.lead? tail ≠ some signal) {fields : List Field}
    (hopens : ∀ field ∈ fields, opens field = signal) {base : Nat}
    (hlength : (wrapped order starts base fields).length ≤ maxCount) :
    Token.skip signal (recount (wrapped order starts base fields) ++ tail) = tail := by
  induction fields generalizing base with
  | nil =>
    rw [wrapped_nil]
    exact Token.skip_of_lead?_ne htail
  | cons field rest ih =>
    obtain ⟨token, last, next, hrun, hwhole, hsignal, -, -, hrest⟩ :=
      exists_fieldRun order starts base field rest hlength
    have hlead : Token.lead? (token :: (recount (body order (base + 1) field) ++ [last])) =
        some signal :=
      congrArg some (hsignal.trans (hopens field List.mem_cons_self))
    rw [hrun, List.append_assoc, Token.skip_append hwhole hlead]
    exact ih (fun other hother => hopens other (List.mem_cons_of_mem _ hother)) hrest

theorem lead?_wrapped (order : ByteOrder) (starts : List Nat) {signal : Signal} {tail : List Token}
    (htail : Token.lead? tail ≠ some signal) {fields : List Field}
    (hopens : ∀ field ∈ fields, opens field ≠ signal) {base : Nat}
    (hlength : (wrapped order starts base fields).length ≤ maxCount) :
    Token.lead? (recount (wrapped order starts base fields) ++ tail) ≠ some signal := by
  cases fields with
  | nil =>
    rw [wrapped_nil]
    exact htail
  | cons field rest =>
    obtain ⟨token, last, next, hrun, -, hsignal, -⟩ :=
      exists_fieldRun order starts base field rest hlength
    rw [hrun]
    intro hlead
    exact hopens field List.mem_cons_self (hsignal ▸ Option.some.inj hlead)

/-- The walk over what is inside a message or an entry, with its block at
`index` and the first group at `next`. -/
def contents (index next : Nat) (run : List Token) : Walking σ Nat := do
  fields listen index run
  let next ← groups listen buffer next (Token.skip .beginField run)
  data listen buffer next (Token.skip .beginGroup (Token.skip .beginField run))

/-- A group is one component: its dimension, then what is inside it. -/
theorem exists_groupRun (order : ByteOrder) (starts : List Nat) (base : Nat) (info : FieldInfo)
    (dimension : DataType) (declared : Int32) (inner rest : List Field)
    (hlength : (wrapped order starts base (.group info dimension declared inner :: rest)).length ≤
      maxCount) :
    ∃ token last next innerStarts innerBase,
      recount (wrapped order starts base (.group info dimension declared inner :: rest)) =
        token :: (recount (typeTokens order 0 info dimension) ++
          recount (wrapped order innerStarts innerBase inner) ++ [last]) ++
          recount (wrapped order starts next rest) ∧
      Whole (token :: (recount (typeTokens order 0 info dimension) ++
        recount (wrapped order innerStarts innerBase inner) ++ [last])) ∧
      Whole (recount (typeTokens order 0 info dimension)) ∧
      token.signal = .beginGroup ∧ token.name = info.name ∧
      (typeTokens order 0 info dimension).length ≤ maxCount ∧
      (wrapped order innerStarts innerBase inner).length ≤ maxCount ∧
      (wrapped order starts next rest).length ≤ maxCount := by
  obtain ⟨token, last, next, hrun, hwhole, hsignal, hname, hinside, hrest⟩ :=
    exists_fieldRun order starts base _ rest hlength
  rw [body, wrapAll_bodies] at hrun hwhole hinside
  rw [List.length_append] at hinside
  rw [Token.recount_append (nested_typeTokens order _ _ _) (nested_wrapped order _ _ _)]
    at hrun hwhole
  obtain ⟨_, _, htype, htypeWhole, -⟩ := exists_typeRun order dimension 0 info (by omega)
  exact ⟨token, last, next, _, _, hrun, hwhole, htype ▸ htypeWhole, hsignal, hname, by omega,
    Nat.le_trans (Nat.le_add_left _ _) hinside, hrest⟩

theorem groups_cons (index : Nat) {token : Token} (hsignal : token.signal = .beginGroup)
    (rest : List Token) :
    groups listen buffer index (token :: rest) = (do
      let parts ← certain (component (token :: rest))
      let size ← certain (dimension buffer index token parts.1)
      listen (.groupHeader token size.entries)
      let next ← entries listen buffer token (Token.groupBody parts.1) size.blockLength
        size.entries size.entries size.start
      groups listen buffer next parts.2) := by
  rw [groups, if_pos hsignal]
  split
  · next h =>
    rw [h]
    rfl
  · next h =>
    rw [h]
    rfl

theorem groups_append (index : Nat) {token : Token} {rest : List Token}
    (hwhole : Whole (token :: rest)) (hsignal : token.signal = .beginGroup) (tail : List Token) :
    groups listen buffer index (token :: rest ++ tail) = (do
      let size ← certain (dimension buffer index token (token :: rest))
      listen (.groupHeader token size.entries)
      let next ← entries listen buffer token (Token.groupBody (token :: rest)) size.blockLength
        size.entries size.entries size.start
      groups listen buffer next tail) := by
  rw [List.cons_append, groups_cons listen buffer index hsignal, ← List.cons_append,
    component_append hwhole, certain_ok, pure_bind]

theorem groups_of_lead?_ne (index : Nat) {run : List Token}
    (h : Token.lead? run ≠ some .beginGroup) : groups listen buffer index run = pure index := by
  cases run with
  | nil => rw [groups]
  | cons token rest =>
    rw [groups, if_neg]
    exact fun heq => h (congrArg some heq)

theorem entries_succ {index blockLength : Nat} (hroomy : index + blockLength ≤ buffer.length)
    (group : Token) (run : List Token) (total left : Nat) :
    entries listen buffer group run blockLength total (left + 1) index = (do
      listen (.beginGroup group (total - (left + 1)) total)
      let next ← contents listen buffer index (index + blockLength) run
      listen (.endGroup group (total - (left + 1)) total)
      entries listen buffer group run blockLength total left next) := by
  have hadvance : advance buffer index blockLength group = .ok (index + blockLength) := by
    rw [advance, if_pos hroomy]
  rw [entries]
  simp only [hadvance, certain_ok, pure_bind, contents, bind_assoc]

/-- A run that none of the three walks goes on with. -/
def Stops (run : List Token) : Prop :=
  Token.lead? run ≠ some .beginField ∧ Token.lead? run ≠ some .beginGroup ∧
    Token.lead? run ≠ some .beginVarData

/-- Plain fields, then groups, then data, each as far as the walks skip them. -/
structure Split (order : ByteOrder) (starts : List Nat) (base second third : Nat)
    (fields : List Field) (last : List Token) : Prop where
  run : recount (wrapped order starts base fields) ++ last =
    recount (wrapped order starts base (fields.filter Field.isPlain)) ++
      (recount (wrapped order starts second (fields.filter Field.isGroup)) ++
        (recount (wrapped order starts third (fields.filter Field.isData)) ++ last))
  plains : (wrapped order starts base (fields.filter Field.isPlain)).length ≤ maxCount
  groups : (wrapped order starts second (fields.filter Field.isGroup)).length ≤ maxCount
  data : (wrapped order starts third (fields.filter Field.isData)).length ≤ maxCount

theorem exists_split (order : ByteOrder) (starts : List Nat) {fields : List Field}
    (hsiblings : Field.Siblings fields) {base : Nat}
    (hlength : (wrapped order starts base fields).length ≤ maxCount) (last : List Token) :
    ∃ second third, Split order starts base second third fields last := by
  obtain ⟨second, third, hwrapped⟩ : ∃ second third, wrapped order starts base fields =
      wrapped order starts base (fields.filter Field.isPlain) ++
        (wrapped order starts second (fields.filter Field.isGroup) ++
          wrapped order starts third (fields.filter Field.isData)) := by
    have hall := congrArg (wrapped order starts base) hsiblings.eq_append
    rw [wrapped_append, wrapped_append] at hall
    exact ⟨_, _, hall⟩
  have hplain := nested_wrapped order (fields.filter Field.isPlain) starts base
  have hgroup := nested_wrapped order (fields.filter Field.isGroup) starts second
  have hdata := nested_wrapped order (fields.filter Field.isData) starts third
  rw [hwrapped, List.length_append, List.length_append] at hlength
  refine ⟨second, third, ?_, by omega, by omega, by omega⟩
  rw [hwrapped, Token.recount_append hplain (hgroup.append hdata),
    Token.recount_append hgroup hdata, List.append_assoc, List.append_assoc]

namespace Split
variable {order : ByteOrder} {starts : List Nat} {base second third : Nat} {fields : List Field}
  {last : List Token}

theorem opens_plain : ∀ field ∈ fields.filter Field.isPlain, opens field = .beginField := by
  intro field hfield
  have hkind := (List.mem_filter.mp hfield).2
  cases field with
  | plain => rfl
  | group => cases hkind
  | data => cases hkind

theorem opens_group : ∀ field ∈ fields.filter Field.isGroup, opens field = .beginGroup := by
  intro field hfield
  have hkind := (List.mem_filter.mp hfield).2
  cases field with
  | plain => cases hkind
  | group => rfl
  | data => cases hkind

theorem opens_data : ∀ field ∈ fields.filter Field.isData, opens field = .beginVarData := by
  intro field hfield
  have hkind := (List.mem_filter.mp hfield).2
  cases field with
  | plain => cases hkind
  | group => cases hkind
  | data => rfl

theorem lead?_data (h : Split order starts base second third fields last) {signal : Signal}
    (hlast : Token.lead? last ≠ some signal) (hsignal : Signal.beginVarData ≠ signal) :
    Token.lead? (recount (wrapped order starts third (fields.filter Field.isData)) ++ last) ≠
      some signal :=
  lead?_wrapped order starts hlast (fun field hfield => opens_data field hfield ▸ hsignal) h.data

theorem lead?_groups (h : Split order starts base second third fields last) (hlast : Stops last) :
    Token.lead? (recount (wrapped order starts second (fields.filter Field.isGroup)) ++
      (recount (wrapped order starts third (fields.filter Field.isData)) ++ last)) ≠
        some .beginField :=
  lead?_wrapped order starts (h.lead?_data hlast.1 (by decide))
    (fun field hfield => opens_group field hfield ▸ by decide) h.groups

theorem skip_fields (h : Split order starts base second third fields last) (hlast : Stops last) :
    Token.skip .beginField (recount (wrapped order starts base fields) ++ last) =
      recount (wrapped order starts second (fields.filter Field.isGroup)) ++
        (recount (wrapped order starts third (fields.filter Field.isData)) ++ last) := by
  rw [h.run]
  exact skip_wrapped order starts (h.lead?_groups hlast) opens_plain h.plains

theorem skip_groups (h : Split order starts base second third fields last) (hlast : Stops last) :
    Token.skip .beginGroup (recount (wrapped order starts second (fields.filter Field.isGroup)) ++
      (recount (wrapped order starts third (fields.filter Field.isData)) ++ last)) =
        recount (wrapped order starts third (fields.filter Field.isData)) ++ last :=
  skip_wrapped order starts (h.lead?_data hlast.2.1 (by decide)) opens_group h.groups

theorem skip_data (h : Split order starts base second third fields last) (hlast : Stops last) :
    Token.skip .beginVarData
      (recount (wrapped order starts third (fields.filter Field.isData)) ++ last) = last :=
  skip_wrapped order starts hlast.2.2 opens_data h.data

end Split

variable {types : Table String DataType} {version : Int32}

theorem reports_contents {order : ByteOrder} {starts : List Nat} {base : Nat} {fields : List Field}
    {last : List Token} (hready : ∀ field ∈ fields, Field.Ready types version field)
    (hsiblings : Field.Siblings fields)
    (hlength : (wrapped order starts base fields).length ≤ maxCount) (hlast : Stops last)
    {block front behind : List UInt8} {groups : List GroupContent} {data : List (List UInt8)}
    (hdata : dataFits (fields.filter Field.isData) data = true)
    (hbuffer : buffer = front ++ ((Content.mk block groups data).wire order fields ++ behind))
    (hgroups : ∀ {base : Nat} {tail : List Token},
      (wrapped order starts base (fields.filter Field.isGroup)).length ≤ maxCount →
      Token.lead? tail ≠ some .beginGroup →
      Reports listen buffer
        (Walk.groups listen buffer (front.length + block.length)
          (recount (wrapped order starts base (fields.filter Field.isGroup)) ++ tail))
        (front.length + block.length +
          (groupsWire order (fields.filter Field.isGroup) groups).length)
        (groupsHeard order (front.length + block.length) (fields.filter Field.isGroup) groups)) :
    Reports listen buffer
      (contents listen buffer front.length (front.length + block.length)
        (recount (wrapped order starts base fields) ++ last))
      (front.length + ((Content.mk block groups data).wire order fields).length)
      ((Content.mk block groups data).heard order fields front.length) := by
  obtain ⟨second, third, hsplit⟩ := exists_split order starts hsiblings hlength last
  have hfields := reports_fields listen buffer order starts front.length
    (hsplit.lead?_groups hlast) (fields.filter Field.isPlain) (by
      intro field hfield
      obtain ⟨hmember, hkind⟩ := List.mem_filter.mp hfield
      cases field with
      | plain info type => exact ⟨info, type, rfl, (hready _ hmember).plain⟩
      | group => cases hkind
      | data => cases hkind) base hsplit.plains
  have hfirst := hgroups hsplit.groups (hsplit.lead?_data hlast.2.1 (by decide))
  have hparts : buffer =
      (front ++ block ++ groupsWire order (fields.filter Field.isGroup) groups) ++
      (dataWire order (fields.filter Field.isData) data ++ behind) := by
    rw [hbuffer, Content.wire]
    simp only [List.append_assoc]
  have hrest := reports_data listen buffer order starts hlast.2.2
    (fun field hfield => hready field (List.mem_filter.mp hfield).1) hdata hsplit.data hparts
  rw [contents, hsplit.skip_fields hlast, hsplit.skip_groups hlast, hsplit.run, Content.heard,
    Content.wire, ← blockHeard_filter]
  simp only [List.length_append, Nat.add_assoc] at hrest hfirst ⊢
  exact .bind hfields (.bind hfirst hrest)

theorem stops_nil : Stops [] :=
  ⟨by decide, by decide, by decide⟩

mutual

theorem reports_content (order : ByteOrder) : ∀ (content : Content) {fields : List Field}
    {starts : List Nat} {base : Nat} {last : List Token} {front behind : List UInt8},
    (∀ field ∈ fields, Field.Ready types version field) → Field.Siblings fields →
    content.fits order fields = true → (wrapped order starts base fields).length ≤ maxCount →
    Stops last → buffer = front ++ (content.wire order fields ++ behind) →
    Reports listen buffer
      (contents listen buffer front.length (front.length + content.block.length)
        (recount (wrapped order starts base fields) ++ last))
      (front.length + (content.wire order fields).length)
      (content.heard order fields front.length)
  | .mk block groups data, fields, starts, base, last, front, behind, hready, hsiblings, hfits,
      hlength, hlast, hbuffer => by
    rw [Content.fits, Bool.and_eq_true] at hfits
    refine reports_contents listen buffer hready hsiblings hlength hlast hfits.2 hbuffer ?_
    intro base tail hgroups htail
    have hparts : buffer = (front ++ block) ++
        (groupsWire order (fields.filter Field.isGroup) groups ++
          (dataWire order (fields.filter Field.isData) data ++ behind)) := by
      rw [hbuffer, Content.wire]
      simp only [List.append_assoc]
    have hreports := reports_groups order groups
      (fun field hfield => hready field (List.mem_filter.mp hfield).1) hfits.1 hgroups htail hparts
    rwa [List.length_append] at hreports

theorem reports_groups (order : ByteOrder) : ∀ (groups : List GroupContent) {fields : List Field}
    {starts : List Nat} {base : Nat} {tail : List Token} {front behind : List UInt8},
    (∀ field ∈ fields, Field.Ready types version field) →
    groupsFit order fields groups = true → (wrapped order starts base fields).length ≤ maxCount →
    Token.lead? tail ≠ some .beginGroup →
    buffer = front ++ (groupsWire order fields groups ++ behind) →
    Reports listen buffer
      (Walk.groups listen buffer front.length
        (recount (wrapped order starts base fields) ++ tail))
      (front.length + (groupsWire order fields groups).length)
      (groupsHeard order front.length fields groups)
  | [], [], starts, base, tail, front, behind, _, _, _, htail, _ => by
    rw [wrapped_nil]
    change Reports listen buffer (Walk.groups listen buffer front.length tail) front.length []
    rw [groups_of_lead?_ne listen buffer front.length htail]
    exact .pure _
  | [], field :: fields, _, _, _, _, _, _, hfits, _, _, _ => by
    obtain ⟨_, _, _, _, _, _, _, _, _, _, heq, _⟩ := groupsFit_cons hfits
    cases heq
  | content :: rest, [], _, _, _, _, _, _, hfits, _, _, _ => by
    cases hfits
  | .mk dimension blockLength entries :: rest, field :: fields, starts, base, tail, front, behind,
      hready, hfits, hlength, htail, hbuffer => by
    obtain ⟨info, name, members, declared, inner, _, _, _, _, rfl, heq, hsize, hblock, hfit, hcount,
      hentries, hrest⟩ := groupsFit_cons hfits
    cases heq
    obtain ⟨_, _, heq, hvalid, hmembers, hlengths, hcounts, hinner, hsiblings⟩ :=
      (hready _ List.mem_cons_self).group
    cases heq
    obtain ⟨token, last, next, innerStarts, innerBase, hrun, hwhole, htype, hsignal, hname,
      hdimensionLength, hinnerLength, hrestLength⟩ :=
      exists_groupRun order starts base info _ declared inner fields hlength
    -- the walk asks for room for all blocks at once, before it enters the first entry
    have hroomy := length_entriesWire hentries
    have hwire : buffer = front ++ (dimension ++ (entriesWire order inner entries ++
        (groupsWire order fields rest ++ behind))) := by
      rw [hbuffer, groupsWire]
      simp only [List.append_assoc]
    have hentriesWire : buffer = (front ++ dimension) ++ (entriesWire order inner entries ++
        (groupsWire order fields rest ++ behind)) := by
      rw [hwire, List.append_assoc]
    have hrestWire : buffer = (front ++ dimension ++ entriesWire order inner entries) ++
        (groupsWire order fields rest ++ behind) := by
      rw [hentriesWire]
      simp only [List.append_assoc]
    have hdimension : Walk.dimension buffer front.length token (token ::
        (recount (typeTokens order 0 info (.composite name members)) ++
          recount (wrapped order innerStarts innerBase inner) ++ [last])) =
        .ok { blockLength, entries := entries.length
              start := front.length + dimension.length } := by
      rw [hwire]
      refine dimension_bracketed hvalid hmembers hlengths hcounts hsize hblock hfit hcount
        hdimensionLength ?_ token token last _
      rw [List.length_append]
      omega
    have hinside := reports_entries order entries token 0 entries.length hinner hsiblings hentries
      hinnerLength (Nat.zero_add _).symm hentriesWire
    have hothers := reports_groups order rest
      (fun other hother => hready other (List.mem_cons_of_mem _ hother)) hrest hrestLength htail
      hrestWire
    rw [hrun, List.append_assoc, groups_append listen buffer _ hwhole hsignal, hdimension,
      certain_ok, pure_bind]
    dsimp only
    have htold : Heard.of buffer (.groupHeader token entries.length) =
        .groupHeader info.name entries.length := by
      rw [Heard.of, hname]
    simp only [List.length_append, hname] at hinside hothers
    rw [Token.groupBody_bracketed _ _ htype, groupsHeard, groupsWire, ← htold]
    simp only [List.length_append, ← Nat.add_assoc]
    exact .tellThen (.bind hinside hothers)

theorem reports_entries (order : ByteOrder) : ∀ (entries : List Content) {fields : List Field}
    {starts : List Nat} {base blockLength : Nat} {front behind : List UInt8} (group : Token)
    (index total : Nat), (∀ field ∈ fields, Field.Ready types version field) →
    Field.Siblings fields → entriesFit order fields blockLength entries = true →
    (wrapped order starts base fields).length ≤ maxCount → total = index + entries.length →
    buffer = front ++ (entriesWire order fields entries ++ behind) →
    Reports listen buffer
      (Walk.entries listen buffer group (recount (wrapped order starts base fields)) blockLength
        total entries.length front.length)
      (front.length + (entriesWire order fields entries).length)
      (entriesHeard order group.name fields total index front.length entries)
  | [], fields, starts, base, blockLength, front, behind, group, index, total,
    _, _, _, _, _, _ => by
    rw [List.length_nil, Walk.entries, entriesWire, entriesHeard]
    exact .pure _
  | entry :: rest, fields, starts, base, blockLength, front, behind, group, index, total, hready,
      hsiblings, hfits, hlength, htotal, hbuffer => by
    rw [entriesFit, Bool.and_eq_true, Bool.and_eq_true, decide_eq_true_eq] at hfits
    obtain ⟨⟨hblock, hentry⟩, hrest⟩ := hfits
    have hroomy : front.length + blockLength ≤ buffer.length := by
      have hle := length_block_le order fields entry
      rw [hbuffer, entriesWire]
      simp only [List.length_append]
      omega
    have hwire : buffer = front ++ (entry.wire order fields ++
        (entriesWire order fields rest ++ behind)) := by
      rw [hbuffer, entriesWire, List.append_assoc]
    have hnext : buffer = (front ++ entry.wire order fields) ++
        (entriesWire order fields rest ++ behind) := by
      rw [hwire, List.append_assoc]
    have hcontent := reports_content order entry hready hsiblings hentry hlength stops_nil hwire
    have hothers := reports_entries order rest group (index + 1) total hready hsiblings
      hrest hlength (by rw [htotal, List.length_cons]; omega) hnext
    -- the recursion counts down what is left, the listener is told how many came before
    have hentry : total - (rest.length + 1) = index := by
      rw [htotal, List.length_cons]
      omega
    rw [List.append_nil, hblock] at hcontent
    rw [List.length_append] at hothers
    rw [List.length_cons, entries_succ listen buffer hroomy, hentry, entriesWire, entriesHeard,
      List.length_append, ← Nat.add_assoc]
    exact .tellThen (.bind hcontent (.tellThen hothers))

end

theorem message_cons (offset blockLength : Nat) {token : Token}
    (hsignal : token.signal = .beginMessage) (rest : List Token) :
    message listen buffer offset blockLength (token :: rest) = (do
      listen (.beginMessage token)
      let next ← contents listen buffer offset (offset + blockLength) rest
      let afterData := Token.skip .beginVarData
        (Token.skip .beginGroup (Token.skip .beginField rest))
      listen (.endMessage (afterData.head?.getD token))
      pure next) := by
  rw [message, if_neg (by simp [hsignal])]
  simp only [contents, bind_assoc]

theorem exists_messageRun (order : ByteOrder) (message : Message)
    (hlength : (messageTokens order message).length ≤ maxCount) :
    ∃ token last, messageTokens order message =
        token :: (recount (messageFields order message) ++ [last]) ∧
      token.signal = .beginMessage ∧ token.name = message.name ∧ token.id = message.id ∧
      last.name = message.name ∧ last.id = message.id ∧ Stops [last] ∧
      (messageFields order message).length ≤ maxCount := by
  have hnested := nested_messageFields order message
  rw [messageTokens_eq, Token.length_recount (nested_bracketed rfl hnested)] at hlength
  obtain ⟨last, hrun, -, hlast⟩ := exists_bracketedRun rfl hnested hlength
  rw [← messageTokens_eq] at hrun
  refine ⟨_, last, hrun, rfl, rfl, rfl, congrArg Token.name hlast, congrArg Token.id hlast, ?_, ?_⟩
  · have hsignal : last.signal = .endMessage := congrArg Token.signal hlast
    simp [Stops, Token.lead?, hsignal]
  · rw [length_bracketed] at hlength
    omega

def messageHeard (order : ByteOrder) (message : Message) (place : Nat) (content : Content) :
    List Heard :=
  .beginMessage message.name message.id ::
    (content.heard order message.fields place ++ [.endMessage message.name message.id])

theorem reports_message {order : ByteOrder} {message : Message} {content : Content}
    {front behind : List UInt8}
    (hready : ∀ field ∈ message.fields, Field.Ready types version field)
    (hsiblings : Field.Siblings message.fields)
    (hlength : (messageTokens order message).length ≤ maxCount)
    (hfits : content.fits order message.fields = true)
    (hbuffer : buffer = front ++ (content.wire order message.fields ++ behind)) :
    Reports listen buffer
      (Walk.message listen buffer front.length content.block.length (messageTokens order message))
      (front.length + (content.wire order message.fields).length)
      (messageHeard order message front.length content) := by
  obtain ⟨token, last, hrun, hsignal, hname, hid, hlastName, hlastId, hstops, hinside⟩ :=
    exists_messageRun order message hlength
  obtain ⟨second, third, hsplit⟩ := exists_split order _ hsiblings hinside [last]
  have hcontent := reports_content listen buffer order content hready hsiblings hfits hinside hstops
    hbuffer
  have hend : Token.skip .beginVarData (Token.skip .beginGroup (Token.skip .beginField
      (recount (messageFields order message) ++ [last]))) = [last] := by
    rw [messageFields, hsplit.skip_fields hstops, hsplit.skip_groups hstops,
      hsplit.skip_data hstops]
  have hfirst : Heard.of buffer (.beginMessage token) = .beginMessage message.name message.id := by
    rw [Heard.of, hname, hid]
  have hlast : Heard.of buffer (.endMessage last) = .endMessage message.name message.id := by
    rw [Heard.of, hlastName, hlastId]
  rw [hrun, message_cons listen buffer _ _ hsignal, hend, messageHeard, ← hfirst, ← hlast]
  exact .tellThen (.bind hcontent (.tellThen (.pure _)))

end
end SimpleBinary.Walk
