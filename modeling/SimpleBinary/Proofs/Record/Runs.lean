import SimpleBinary.Ir.Record
import SimpleBinary.Proofs.Ir.Build

/-! How the tokens of a record fall into runs. A record is read exactly when
its tokens are the closed composite of the header and closed messages behind
it, and gives the schema that those build up. -/
namespace SimpleBinary.Record
open Token (Bracketed findEnd)

def MessageRun (id : Int32) (tokens : List Token) : Prop :=
  Bracketed .beginMessage tokens ∧ tokens.head?.map (·.id) = some id

instance (id : Int32) (tokens : List Token) : Decidable (MessageRun id tokens) :=
  inferInstanceAs (Decidable (_ ∧ _))

def messageRuns (tokens : List Token) : List (Int32 × List Token) :=
  match tokens with
  | [] => []
  | token :: rest =>
    match findEnd (token :: rest) 0 with
    | none => []
    | some last =>
      (token.id, (token :: rest).take (last + 1)) :: messageRuns ((token :: rest).drop (last + 1))
termination_by tokens.length
decreasing_by
  simp only [List.length_drop, List.length_cons]
  omega

section
variable {ir result : Ir} {runs : List (Int32 × List Token)}

theorem messageRuns_flatMap (h : ∀ run ∈ runs, MessageRun run.1 run.2) :
    messageRuns (runs.flatMap (·.2)) = runs := by
  induction runs with
  | nil => rw [List.flatMap_nil, messageRuns]
  | cons run rest ih =>
    obtain ⟨id, tokens⟩ := run
    obtain ⟨hclosed, hid⟩ := h _ List.mem_cons_self
    have hrest := ih fun other hother => h other (List.mem_cons_of_mem _ hother)
    cases tokens with
    | nil => cases hid
    | cons token tail =>
      cases hid
      have hend := hclosed.findEnd_append (rest.flatMap (·.2))
      rw [List.flatMap_cons, List.cons_append, messageRuns]
      rw [List.cons_append, List.length_cons, Nat.add_sub_cancel] at hend
      simp only [hend, List.take_succ_cons, List.drop_succ_cons, List.take_left, List.drop_left,
        hrest]

theorem addMessages_append {id : Int32} {tokens : List Token} (h : MessageRun id tokens)
    (index fuel : Nat) (rest : List Token) :
    ∃ next, addMessages ir index (fuel + 1) (tokens ++ rest) =
      addMessages (ir.addMessage id tokens) next fuel rest := by
  obtain ⟨hclosed, hid⟩ := h
  cases tokens with
  | nil => cases hid
  | cons token tail =>
    cases hid
    have hend := hclosed.findEnd_append rest
    have hsignal : token.signal = .beginMessage := Option.some.inj hclosed.1
    rw [List.cons_append, List.length_cons, Nat.add_sub_cancel] at hend
    refine ⟨index + tail.length + 1, ?_⟩
    rw [List.cons_append, addMessages]
    simp only [hsignal, ne_eq, not_true_eq_false, if_false, hend, List.take_succ_cons,
      List.drop_succ_cons, List.take_left, List.drop_left]

theorem addMessages_flatMap (index : Nat) {fuel : Nat} (h : ∀ run ∈ runs, MessageRun run.1 run.2)
    (hfuel : (runs.flatMap (·.2)).length ≤ fuel) :
    addMessages ir index fuel (runs.flatMap (·.2)) = .ok (ir.addAll runs) := by
  induction runs generalizing ir index fuel with
  | nil => cases fuel <;> rfl
  | cons run rest ih =>
    have hrun := h run List.mem_cons_self
    have hpos := hrun.1.pos
    rw [List.flatMap_cons, List.length_append] at hfuel
    cases fuel with
    | zero => omega
    | succ fuel =>
      obtain ⟨next, hnext⟩ := addMessages_append hrun index fuel (rest.flatMap (·.2))
      rw [List.flatMap_cons, hnext]
      exact ih next (fun other hother => h other (List.mem_cons_of_mem _ hother)) (by omega)

theorem runs_of_addMessages {index fuel : Nat} {tokens : List Token} (hfuel : tokens.length ≤ fuel)
    (h : addMessages ir index fuel tokens = .ok result) :
    ∃ runs : List (Int32 × List Token), tokens = runs.flatMap (·.2) ∧
      (∀ run ∈ runs, MessageRun run.1 run.2) ∧ result = ir.addAll runs := by
  induction fuel generalizing ir index tokens with
  | zero =>
    cases tokens with
    | nil =>
      cases h
      exact ⟨[], rfl, nofun, rfl⟩
    | cons token rest => cases hfuel
  | succ fuel ih =>
    cases tokens with
    | nil =>
      cases h
      exact ⟨[], rfl, nofun, rfl⟩
    | cons token rest =>
      unfold addMessages at h
      split at h
      · cases h
      · next hsignal =>
        split at h
        · cases h
        · next last hend =>
          -- a message takes at least the token that opens it, so the fuel lasts
          have hlength : ((token :: rest).drop (last + 1)).length ≤ fuel := by
            rw [List.length_drop]
            omega
          obtain ⟨runs, htokens, hruns, hresult⟩ := ih hlength h
          refine ⟨(token.id, (token :: rest).take (last + 1)) :: runs, ?_, ?_, hresult⟩
          · rw [List.flatMap_cons, ← htokens, List.take_append_drop]
          · have hopening : (token :: rest).head?.map (·.signal) = some .beginMessage :=
              congrArg some (Decidable.not_not.mp hsignal)
            intro run hrun
            rcases List.mem_cons.mp hrun with rfl | hrun
            · exact ⟨.of_take hopening hend, rfl⟩
            · exact hruns run hrun

end

theorem headerEnd_eq_ok {tokens : List Token} {last : Nat} :
    headerEnd tokens = .ok last ↔
      tokens.head?.map (·.signal) = some .beginComposite ∧ findEnd tokens 0 = some last := by
  cases tokens with
  | nil => exact ⟨nofun, nofun⟩
  | cons token rest =>
    rw [headerEnd]
    by_cases hsignal : token.signal = .beginComposite
    · rw [if_pos hsignal]
      cases findEnd (token :: rest) 0 with
      | none => simp
      | some n => simp [hsignal]
    · rw [if_neg hsignal]
      simp [hsignal]

theorem headerEnd_append {header : List Token} (h : Bracketed .beginComposite header)
    (rest : List Token) : headerEnd (header ++ rest) = .ok (header.length - 1) := by
  refine headerEnd_eq_ok.mpr ⟨?_, h.findEnd_append rest⟩
  cases header with
  | nil => cases h.1
  | cons token tail => exact h.1

def preamble : Decode (Int32 × Int32 × Option String × Option String × Option String) := do
  let id ← take .id Cursor.word32
  let version ← take .recordVersion Cursor.word32
  if version ≠ recordVersion then throw (.recordVersion version)
  let schemaVersion ← take .schemaVersion Cursor.word32
  let packageName ← decodeText .packageName
  let namespaceName ← decodeText .namespaceName
  let semanticVersion ← decodeText .semanticVersion
  return (id, schemaVersion, packageName, namespaceName, semanticVersion)

def contents (data : List UInt8) :
    Except Error ((Int32 × Int32 × Option String × Option String × Option String) ×
      List Token) := do
  let (fields, cursor) ← preamble.run (.ofBytes data)
  let tokens ← decodeTokens [] data.length cursor
  return (fields, tokens)

def runs (data : List UInt8) : Except Error (List (Int32 × List Token)) := do
  let (_, tokens) ← contents data
  let last ← headerEnd tokens
  return messageRuns (tokens.drop (last + 1))

theorem decode_eq (data : List UInt8) :
    decode data = (do
      let ((id, version, packageName, namespaceName, semanticVersion), tokens) ← contents data
      let last ← headerEnd tokens
      let header := tokens.take (last + 1)
      let ir ← Ir.create (packageName.getD "") namespaceName id version semanticVersion
        (byteOrderOf header) header
      addMessages ir (last + 1) tokens.length (tokens.drop (last + 1))) := by
  unfold contents
  simp only [bind_assoc, pure_bind]
  rfl

theorem decode_of_header {data : List UInt8} {id version : Int32}
    {packageName namespaceName semanticVersion : Option String} {header rest : List Token}
    {start : Ir}
    (hcontents : contents data = .ok ((id, version, packageName, namespaceName, semanticVersion),
      header ++ rest))
    (hheader : Bracketed .beginComposite header)
    (hstart : Ir.create (packageName.getD "") namespaceName id version semanticVersion
      (byteOrderOf header) header = .ok start) :
    decode data = addMessages start header.length (header ++ rest).length rest := by
  have hlast : header.length - 1 + 1 = header.length := Nat.sub_add_cancel hheader.pos
  rw [decode_eq, hcontents]
  simp only [bind, Except.bind, headerEnd_append hheader, hlast, List.take_left, List.drop_left,
    hstart]

/-- A record is read exactly when its tokens are a closed header and closed
messages. -/
theorem decode_eq_ok {data : List UInt8} {ir : Ir} :
    decode data = .ok ir ↔ ∃ id version packageName namespaceName semanticVersion header
        messages start,
      contents data = .ok ((id, version, packageName, namespaceName, semanticVersion),
        header ++ messages.flatMap (·.2)) ∧
      Bracketed .beginComposite header ∧ (∀ run ∈ messages, MessageRun run.1 run.2) ∧
      Ir.create (packageName.getD "") namespaceName id version semanticVersion
        (byteOrderOf header) header = .ok start ∧
      ir = start.addAll messages := by
  rw [decode_eq]
  constructor
  · intro h
    obtain ⟨⟨⟨id, version, packageName, namespaceName, semanticVersion⟩, tokens⟩, hcontents, h⟩ :=
      bind_eq_ok.mp h
    obtain ⟨last, hlast, h⟩ := bind_eq_ok.mp h
    obtain ⟨start, hstart, h⟩ := bind_eq_ok.mp h
    obtain ⟨hopening, hend⟩ := headerEnd_eq_ok.mp hlast
    obtain ⟨messages, htokens, hmessages, hresult⟩ :=
      runs_of_addMessages (by rw [List.length_drop]; omega) h
    refine ⟨id, version, packageName, namespaceName, semanticVersion, tokens.take (last + 1),
      messages, start, ?_, .of_take hopening hend, hmessages, hstart, hresult⟩
    rw [← htokens, List.take_append_drop, hcontents]
  · rintro ⟨id, version, packageName, namespaceName, semanticVersion, header, messages, start,
      hcontents, hheader, hmessages, hstart, rfl⟩
    rw [← decode_eq, decode_of_header hcontents hheader hstart]
    exact addMessages_flatMap _ hmessages (by rw [List.length_append]; omega)

end SimpleBinary.Record
