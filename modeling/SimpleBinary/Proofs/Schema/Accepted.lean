import SimpleBinary.Proofs.Schema.Document
import SimpleBinary.Proofs.Schema.Layout
import SimpleBinary.Proofs.Schema.Messages
import SimpleBinary.Schema.Reader

/-! An accepted schema. A document is accepted only past two checkpoints, so
all that was read is valid, and every message has been laid out. -/
namespace SimpleBinary.Schema
open Check (Yields)
open Xml (Element)

/-- A message under its own identity, laid out from a declared one of some
kind. -/
def LaidOut (kind : Message → Prop) (entry : Int32 × Message) : Prop :=
  entry.1 = entry.2.id ∧ ∃ declared : Message, kind declared ∧ declared.Arranged entry.2

def Accepted (types : Table String DataType) (version : Int32) : Int32 × Message → Prop :=
  LaidOut (·.Valid types version)

def IsHeader (members : List DataType) : Prop :=
  DataType.Measures members "blockLength" ∧ ∀ name ∈ ["templateId", "schemaId", "version"],
    ∃ type, DataType.encodedMember? members name = some type ∧ type.primitive = .uint16

structure Valid (schema : Schema) : Prop where
  types : TypeReader.Types schema.types
  header : ∃ members, schema.header? = some members ∧ IsHeader members
  messages : ∀ entry ∈ schema.messages.entries, Accepted schema.types schema.version entry
  semanticVersion : schema.semanticVersion ≠ some ""

theorem Valid.message {schema : Schema} {message : Message} (h : schema.Valid)
    (hmessage : message ∈ schema.messages.values) :
    message.Valid schema.types schema.version := by
  obtain ⟨entry, hentry, rfl⟩ := List.mem_map.mp hmessage
  obtain ⟨-, declared, hdeclared, harranged⟩ := h.messages entry hentry
  exact harranged.valid hdeclared

theorem yields_layOut (message : Message) : Yields (layOut message) message.Arranged := by
  intro log result after hrun hclean
  unfold layOut at hrun
  obtain ⟨⟨arranged, outcome⟩, between, harrange, hrun⟩ := Yields.run_bind_eq_ok hrun
  have hlift : ((.ok (message.arrange.run log).1, (message.arrange.run log).2) :
      Except Error (Message × Except Error Unit) × Log) = (.ok (arranged, outcome), between) :=
    harrange
  obtain ⟨hvalue, hlog⟩ := Prod.mk.inj hlift
  have hpair : message.arrange.run log = ((arranged, outcome), between) :=
    Prod.ext (Except.ok.inj hvalue) hlog
  cases outcome with
  | error error => cases hrun
  | ok _ =>
    cases hrun
    exact Message.run_arrange hpair hclean

theorem yields_addMessage {vocabulary : MessageReader.Vocabulary} {element : Element}
    {kind : Message → Prop} (hread : Yields (MessageReader.readMessage vocabulary element) kind)
    (messages : Table Int32 Message) :
    Yields (addMessage vocabulary messages element) fun result =>
      (∀ entry ∈ messages.entries, LaidOut kind entry) →
      ∀ entry ∈ result.entries, LaidOut kind entry := by
  have hinsert : ∀ message : Message, Yields (do
      return messages.insert message.id (← layOut message)) fun result =>
      kind message → (∀ entry ∈ messages.entries, LaidOut kind entry) →
      ∀ entry ∈ result.entries, LaidOut kind entry := by
    intro message
    refine .bind (yields_layOut message) fun arranged => .pure ?_
    intro harranged hkind haccepted entry hentry
    rcases Table.mem_insertEntry hentry with rfl | hentry
    · exact ⟨(congrArg Message.id harranged.same).symm, message, hkind, harranged⟩
    · exact haccepted entry hentry
  unfold addMessage
  refine .bind hread fun message => ?_
  dsimp only
  split
  · exact .bind (.error _) fun _ => .pure fun h => h.elim
  · exact .warn (hinsert message)

theorem yields_headerMember (composite : String) (members : List DataType) (name : String) :
    Yields (Check.headerMember composite members name) fun _ =>
      ∃ type, DataType.encodedMember? members name = some type ∧ type.primitive = .uint16 := by
  unfold Check.headerMember
  split
  · exact (Yields.error _).mono fun _ h => h.elim
  · next type htype =>
    split
    · next hword => exact .pure ⟨type, htype, hword⟩
    · exact (Yields.error _).mono fun _ h => h.elim

theorem yields_header (composite : String) (members : List DataType) :
    Yields (Check.header composite members) fun _ => IsHeader members := by
  have hrest : Yields (do
      Check.headerMember composite members "templateId"
      Check.headerMember composite members "schemaId"
      Check.headerMember composite members "version") fun _ =>
      DataType.Measures members "blockLength" → IsHeader members := by
    refine .bind (yields_headerMember composite members "templateId") fun _ => ?_
    refine .bind (yields_headerMember composite members "schemaId") fun _ => ?_
    refine (yields_headerMember composite members "version").mono ?_
    intro _ hversion hschema htemplate hlength
    refine ⟨hlength, ?_⟩
    simp only [List.mem_cons, List.not_mem_nil, or_false]
    rintro _ (rfl | rfl | rfl) <;> assumption
  unfold Check.header
  dsimp only
  split
  · exact .bind (.error _) fun _ => hrest.mono fun _ _ h => h.elim
  · next type htype =>
    split
    · exact .bind (.error _) fun _ => hrest.mono fun _ _ h => h.elim
    · next hunsigned =>
      have hlength : DataType.Measures members "blockLength" :=
        ⟨type, htype, by simpa using hunsigned⟩
      exact .warn (hrest.mono fun _ h => h hlength)

theorem yields_checkHeader (types : Table String DataType) (headerType : String) :
    Yields (checkHeader types headerType) fun _ =>
      ∃ members, (types.get? headerType).bind DataType.composite? = some members ∧
        IsHeader members := by
  unfold checkHeader
  split
  · next members hmembers =>
    exact (yields_header headerType members).mono fun _ h => ⟨members, hmembers, h⟩
  · exact (Yields.error _).mono fun _ h => h.elim

/-- The types of an accepted root are what all types are read as, and its
messages are laid out from what every message is read as. -/
theorem run_ofRoot {root : Element} {log after : Log} {schema : Schema}
    (h : (ofRoot root).run log = (.ok schema, after)) :
    (∀ post, Yields (TypeReader.readAll root) post → post schema.types) ∧
      (∃ members, schema.header? = some members ∧ IsHeader members) ∧
      schema.semanticVersion ≠ some "" ∧
      ∀ kind : Message → Prop, (∀ element, Yields (MessageReader.readMessage
          { types := schema.types, version := schema.version } element) kind) →
        ∀ entry ∈ schema.messages.entries, LaidOut kind entry := by
  unfold ofRoot at h
  obtain ⟨packageName, _, _, h⟩ := Yields.run_bind_eq_ok h
  obtain ⟨id, _, _, h⟩ := Yields.run_bind_eq_ok h
  obtain ⟨version, _, _, h⟩ := Yields.run_bind_eq_ok h
  obtain ⟨types, _, htypes, h⟩ := Yields.run_bind_eq_ok h
  obtain ⟨_, _, hheader, h⟩ := Yields.run_bind_eq_ok h
  obtain ⟨_, _, hcheckpoint, h⟩ := Yields.run_bind_eq_ok h
  obtain ⟨messages, _, hmessages, h⟩ := Yields.run_bind_eq_ok h
  obtain ⟨_, _, hlast, h⟩ := Yields.run_bind_eq_ok h
  cases h
  -- The first checkpoint makes the types sure, so messages are read against valid ones.
  obtain ⟨-, hclean⟩ := Yields.run_checkpoint hcheckpoint
  obtain ⟨hclean, hheader⟩ := yields_checkHeader _ _ _ _ _ hheader hclean
  refine ⟨fun post hpost => (hpost _ _ _ htypes hclean).2, hheader, root.attribute?_ne_empty _,
    fun kind hkind => ?_⟩
  obtain ⟨-, hclean⟩ := Yields.run_checkpoint hlast
  obtain ⟨-, hmessages⟩ := Yields.foldlM
    (fun element _ messages => yields_addMessage (hkind element) messages) .empty _ _ _
    hmessages hclean
  exact hmessages nofun

theorem exists_ofRoot {document : String} {policy : Policy} {schema : Schema}
    (h : parse document policy = .ok schema) :
    ∃ root log after, (ofRoot root).run log = (.ok schema, after) := by
  rcases hread : readLogged document policy with ⟨outcome, log⟩
  have houtcome : outcome = .ok schema := by
    rw [parse, hread] at h
    exact h
  rw [houtcome] at hread
  obtain ⟨root, hroot⟩ := exists_ofRoot_of_readLogged hread
  exact ⟨root, _, _, hroot⟩

theorem valid_of_parse {document : String} {policy : Policy} {schema : Schema}
    (h : parse document policy = .ok schema) : schema.Valid := by
  obtain ⟨root, _, _, hroot⟩ := exists_ofRoot h
  obtain ⟨hread, hheader, hsemantic, hmessages⟩ := run_ofRoot hroot
  have htypes := hread _ (TypeReader.yields_readAll root)
  refine ⟨htypes, hheader, hmessages _ fun element => ?_, hsemantic⟩
  exact ((MessageReader.readAs_any _).yields_readMessage htypes element).mono fun _ h => h.1

theorem exists_declared_of_parse {document : String} {policy : Policy} {schema : Schema}
    (h : parse document policy = .ok schema) {one : Field → Prop} {row : List Field → Prop}
    (hread : MessageReader.ReadAs { types := schema.types, version := schema.version } one row)
    {message : Message} (hmessage : message ∈ schema.messages.values) :
    ∃ declared : Message, row declared.fields ∧ declared.Arranged message := by
  obtain ⟨root, _, _, hroot⟩ := exists_ofRoot h
  obtain ⟨htypes, -, -, hmessages⟩ := run_ofRoot hroot
  have hrow := hread.yields_readMessage (htypes _ (TypeReader.yields_readAll root))
  obtain ⟨entry, hentry, rfl⟩ := List.mem_map.mp hmessage
  obtain ⟨-, declared, hdeclared, harranged⟩ := hmessages _ hrow entry hentry
  exact ⟨declared, hdeclared.2, harranged⟩

end SimpleBinary.Schema
