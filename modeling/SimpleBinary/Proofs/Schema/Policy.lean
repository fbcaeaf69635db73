import SimpleBinary.Proofs.Schema.Document
import SimpleBinary.Proofs.Schema.MessageScripts
import SimpleBinary.Proofs.Schema.TypeScripts
import SimpleBinary.Schema.Reader

/-! The policy of a reading. Every reader follows a script, so two policies
read the same out of a document, and go the same way up to the first diagnostic
that one of them does not let pass. -/
namespace SimpleBinary
namespace Schema
open Check (Scripted)
open Xml (Element)

theorem scripted_layOut (message : Message) : Scripted (layOut message) := by
  have hattempt : layOut message = Prod.fst <$> Field.attempt message.arrange := by
    funext log
    have hlift : (liftM message.arrange : Check (Message × Except Error Unit)).run log =
        (.ok (message.arrange log).1, (message.arrange log).2) := rfl
    refine (Check.run_bind_ok hlift).trans ?_
    change _ = ExceptT.bindCont (m := StateM Log) (fun pair => pure pair.1)
      ((message.arrange log).1.2.map ((message.arrange log).1.1, ·)) (message.arrange log).2
    rcases message.arrange log with ⟨⟨arranged, error | value⟩, after⟩ <;> rfl
  rw [hattempt]
  refine .map _ ?_
  unfold Message.arrange
  refine Field.scripted_after_layout (Field.scripted_placeAll _ _ _) (fun _ _ => ⟨_, rfl⟩) ?_
  intro fields last
  refine Field.scripted_after_check ?_ (fun _ => ⟨_, rfl⟩) fun _ => Field.scripted_outcome _ _
  exact .ite (.error _) (.pure _)

theorem scripted_addMessage (vocabulary : MessageReader.Vocabulary)
    (messages : Table Int32 Message) (element : Element) :
    Scripted (addMessage vocabulary messages element) := by
  unfold addMessage
  refine .bind (MessageReader.scripted_readMessage vocabulary element) fun message => ?_
  refine .ite (.bind (.error _) fun _ => .pure _) ?_
  exact .guard (.warning _) (.bind (scripted_layOut message) fun _ => .pure _)

theorem scripted_headerMember (composite : String) (members : List DataType) (name : String) :
    Scripted (Check.headerMember composite members name) := by
  unfold Check.headerMember
  split
  · exact .error _
  · exact .ite (.pure _) (.error _)

theorem scripted_checkHeader (types : Table String DataType) (headerType : String) :
    Scripted (checkHeader types headerType) := by
  unfold checkHeader
  split
  · next members _ =>
    have hrest : Scripted (do
        Check.headerMember headerType members "templateId"
        Check.headerMember headerType members "schemaId"
        Check.headerMember headerType members "version") := by
      refine .bind (scripted_headerMember _ _ _) fun _ => ?_
      exact .bind (scripted_headerMember _ _ _) fun _ => scripted_headerMember _ _ _
    unfold Check.header
    dsimp only
    split
    · exact .bind (.error _) fun _ => hrest
    · exact .ite (.bind (.error _) fun _ => hrest) (.guard (.warning _) hrest)
  · exact .error _

section
variable {endless : Bool}

/-- Only the reading of the types may be endless. -/
theorem scripted_ofRoot {root : Element} (htypes : Scripted (TypeReader.readAll root) endless) :
    Scripted (ofRoot root) endless := by
  unfold ofRoot
  refine .bind (root.scripted_required "package").weaken fun _ => ?_
  refine .bind (root.scripted_requiredWord "id").weaken fun _ => ?_
  refine .bind (root.scripted_word "version" 0).weaken fun version => ?_
  refine .bind htypes fun types => ?_
  refine .bind (scripted_checkHeader types _).weaken fun _ => ?_
  refine .bind .checkpoint fun _ => ?_
  refine .bind (.foldlM (fun messages element => ?_) _ _) fun messages => ?_
  · exact (scripted_addMessage _ messages element).weaken
  · refine .bind .checkpoint fun _ => ?_
    exact .pure _

theorem scripted_read_of_types {document : String} (htypes : ∀ root,
    Element.ofDocument document = .ok root → Scripted (TypeReader.readAll root) endless) :
    Scripted (read document) endless := by
  unfold read ofXml
  split
  · exact .throw _
  · next root hroot => exact .ite (scripted_ofRoot (htypes root hroot)) (.throw _)

end

theorem scripted_read (document : String) : Scripted (read document) true :=
  scripted_read_of_types fun root _ => TypeReader.scripted_readAll root

theorem passed_of_readLogged {document : String} {policy : Policy} {schema : Schema} {log : Log}
    (h : readLogged document policy = (.ok schema, log)) :
    ∀ diagnostic ∈ log.diagnostics, Log.isFatal policy diagnostic.severity = false := by
  obtain ⟨script, hscript, -⟩ := scripted_read document
  have hpolicy : log.policy = policy := by
    obtain ⟨more, hmore⟩ := script.exists_found policy []
    rw [← hscript, show (read document).run ⟨policy, []⟩ = _ from h] at hmore
    exact congrArg Log.policy hmore
  have hlast : Check.refuses log.policy log.diagnostics = false := by
    obtain ⟨root, h⟩ := exists_ofRoot_of_readLogged h
    unfold ofRoot at h
    obtain ⟨_, _, _, h⟩ := Check.Yields.run_bind_eq_ok h
    obtain ⟨_, _, _, h⟩ := Check.Yields.run_bind_eq_ok h
    obtain ⟨_, _, _, h⟩ := Check.Yields.run_bind_eq_ok h
    obtain ⟨_, _, _, h⟩ := Check.Yields.run_bind_eq_ok h
    obtain ⟨_, _, _, h⟩ := Check.Yields.run_bind_eq_ok h
    obtain ⟨_, _, _, h⟩ := Check.Yields.run_bind_eq_ok h
    obtain ⟨_, _, _, h⟩ := Check.Yields.run_bind_eq_ok h
    obtain ⟨_, _, hcheckpoint, h⟩ := Check.Yields.run_bind_eq_ok h
    cases h
    exact Check.passes_of_run_checkpoint hcheckpoint
  simpa [Check.refuses, hpolicy] using hlast

/-- One reading is the other, cut short behind its first fatal diagnostic. -/
structure Cuts (policy : Policy) (whole cut : Except Error Schema × Log) : Prop where
  same : (∀ diagnostic ∈ whole.2.diagnostics, Log.isFatal policy diagnostic.severity = false) →
    cut.1 = whole.1 ∧ cut.2.diagnostics = whole.2.diagnostics
  first : ∀ (before after : List Diagnostic) (diagnostic : Diagnostic),
    whole.2.diagnostics = before ++ diagnostic :: after →
    (∀ earlier ∈ before, Log.isFatal policy earlier.severity = false) →
    Log.isFatal policy diagnostic.severity = true →
    cut.1 = .error (.schema diagnostic.finding) ∧ cut.2.diagnostics = before ++ [diagnostic]

theorem isFatal_stopOnError (policy : Policy) (stop : Bool) (severity : Severity) :
    Log.isFatal { policy with stopOnError := stop } severity = Log.isFatal policy severity := by
  cases severity <;> rfl

theorem readLogged_alike {document : String} {policy other : Policy}
    (h : ∀ diagnostic ∈ (readLogged document policy).2.diagnostics,
      Check.Script.Alike policy other diagnostic) :
    (readLogged document other).1 = (readLogged document policy).1 ∧
      (readLogged document other).2.diagnostics = (readLogged document policy).2.diagnostics := by
  obtain ⟨script, hscript, -⟩ := scripted_read document
  unfold readLogged at h ⊢
  rw [hscript] at h ⊢
  simp [script.run_alike h]

theorem cuts_readLogged (document : String) (policy : Policy) :
    Cuts policy (readLogged document { policy with stopOnError := false })
      (readLogged document { policy with stopOnError := true }) where
  same h := by
    apply readLogged_alike
    intro diagnostic hmem
    have hharmless := h diagnostic hmem
    apply Check.Script.alike_of_harmless <;> rw [isFatal_stopOnError, hharmless]
  first before after diagnostic hfound hclean hfatal := by
    obtain ⟨script, hscript, -⟩ := scripted_read document
    unfold readLogged at hfound ⊢
    rw [hscript] at hfound ⊢
    simp [script.run_first (by simp) hfound hclean hfatal]

theorem parse_of_harmless {document : String} {policy other : Policy} {schema : Schema}
    (h : parse document policy = .ok schema)
    (hother : ∀ diagnostic ∈ (readLogged document policy).2.diagnostics,
      Log.isFatal other diagnostic.severity = false) :
    parse document other = .ok schema ∧
      (readLogged document other).2.diagnostics = (readLogged document policy).2.diagnostics := by
  have hpassed := passed_of_readLogged (Prod.ext h rfl)
  have hrun := readLogged_alike fun diagnostic hmem =>
    Check.Script.alike_of_harmless (hpassed diagnostic hmem) (hother diagnostic hmem)
  exact ⟨hrun.1.trans h, hrun.2⟩

theorem warningCount_eq_zero {log : Log} :
    log.warningCount = 0 ↔ ∀ diagnostic ∈ log.diagnostics, diagnostic.severity ≠ .warning := by
  simp [Log.warningCount, Diagnostic.count, List.countP_eq_zero]

theorem parse_iff_default (document : String) (policy : Policy) (schema : Schema) :
    parse document policy = .ok schema ↔ parse document {} = .ok schema ∧
      (policy.warningsFatal = true → (readLogged document {}).2.warningCount = 0) := by
  constructor
  · intro h
    have hpassed := passed_of_readLogged (Prod.ext h rfl)
    have hlenient : ∀ diagnostic ∈ (readLogged document policy).2.diagnostics,
        Log.isFatal {} diagnostic.severity = false := by
      intro diagnostic hmem
      have hharmless := hpassed diagnostic hmem
      cases hseverity : diagnostic.severity with
      | error => simp [hseverity, Log.isFatal] at hharmless
      | warning => rfl
    have hdefault := parse_of_harmless h hlenient
    refine ⟨hdefault.1, fun hwarnings => ?_⟩
    rw [warningCount_eq_zero, hdefault.2]
    intro diagnostic hmem hseverity
    have hharmless := hpassed diagnostic hmem
    simp [hseverity, Log.isFatal, hwarnings] at hharmless
  · rintro ⟨h, hwarnings⟩
    have hpassed := passed_of_readLogged (Prod.ext h rfl)
    refine (parse_of_harmless h fun diagnostic hmem => ?_).1
    cases hseverity : diagnostic.severity with
    | error =>
      have hharmless := hpassed diagnostic hmem
      simp [hseverity, Log.isFatal] at hharmless
    | warning =>
      cases hfatal : policy.warningsFatal with
      | false => exact hfatal
      | true =>
        exact absurd hseverity (warningCount_eq_zero.mp (hwarnings hfatal) diagnostic hmem)

/-- A policy decides when a reading ends, and never what is read. -/
theorem policy_cuts_reading (document : String) :
    (∀ policy : Policy, Cuts policy (readLogged document { policy with stopOnError := false })
      (readLogged document { policy with stopOnError := true })) ∧
    (∀ (policy : Policy) (schema : Schema), parse document policy = .ok schema ↔
      parse document {} = .ok schema ∧
        (policy.warningsFatal = true → (readLogged document {}).2.warningCount = 0)) ∧
    ∀ (policy : Policy) (quiet : Bool),
      (readLogged document { policy with suppressOutput := quiet }).1 =
        (readLogged document policy).1 ∧
      (readLogged document { policy with suppressOutput := quiet }).2.diagnostics =
        (readLogged document policy).2.diagnostics := by
  refine ⟨cuts_readLogged document, parse_iff_default document, fun policy quiet => ?_⟩
  apply readLogged_alike
  intro diagnostic _
  cases hseverity : diagnostic.severity <;>
    simp [Check.Script.Alike, Check.stops, Log.isFatal, hseverity]

/-- A document with a type declared twice, a type without a proper name, and no
message header. -/
def flawed : String :=
  "<messageSchema package='p' id='7'><types><type name='T' primitiveType='uint8'/>
    <type name='T' primitiveType='uint16'/><type name='9' primitiveType='uint8'/></types>
    </messageSchema>"

theorem diagnostics_flawed (fatal quiet : Bool) :
    (readLogged flawed ⟨false, fatal, quiet⟩).2.diagnostics =
      [⟨.warning, .duplicateType "T"⟩, ⟨.error, .invalidName "9"⟩,
        ⟨.error, .headerType "messageHeader"⟩] := by
  rw [flawed, readLogged_eq String.toList_ofList]
  cases fatal <;> cases quiet <;> decide +kernel

theorem policy_cuts_reading_flawed :
    ((readLogged flawed { stopOnError := true }).1 = .error (.schema (.invalidName "9")) ∧
      (readLogged flawed { stopOnError := true }).2.diagnostics =
        [⟨.warning, .duplicateType "T"⟩, ⟨.error, .invalidName "9"⟩]) ∧
    (readLogged flawed { stopOnError := true, warningsFatal := true }).1 =
        .error (.schema (.duplicateType "T")) ∧
      (readLogged flawed { stopOnError := true, warningsFatal := true }).2.diagnostics =
        [⟨.warning, .duplicateType "T"⟩] := by
  have hcuts := fun fatal => (policy_cuts_reading flawed).1 ⟨false, fatal, false⟩
  dsimp only at hcuts
  constructor
  · apply (hcuts false).first [⟨.warning, .duplicateType "T"⟩]
      [⟨.error, .headerType "messageHeader"⟩] ⟨.error, .invalidName "9"⟩
    · exact diagnostics_flawed false false
    · simp [Log.isFatal]
    · rfl
  · apply (hcuts true).first []
      [⟨.error, .invalidName "9"⟩, ⟨.error, .headerType "messageHeader"⟩]
      ⟨.warning, .duplicateType "T"⟩
    · exact diagnostics_flawed true false
    · simp
    · rfl

end Schema
end SimpleBinary
