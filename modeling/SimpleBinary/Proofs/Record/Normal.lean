import SimpleBinary.Proofs.Record.RoundTrip

/-! Whatever record is read, in whatever spelling, what is read is written in
a form that is read as the same schema again. -/
namespace SimpleBinary.Record

theorem faithful_of_decodeTokens {found result : List Token} {fuel : Nat} {cursor : Cursor}
    (hfound : ∀ token ∈ found, Faithful token ∧ reread token = token)
    (h : decodeTokens found fuel cursor = .ok result) :
    ∀ token ∈ result, Faithful token ∧ reread token = token := by
  induction fuel generalizing found cursor with
  | zero =>
    cases h
    simpa using hfound
  | succ fuel ih =>
    unfold decodeTokens at h
    split at h
    · cases h
      simpa using hfound
    · obtain ⟨⟨token, next⟩, htoken, h⟩ := bind_eq_ok.mp h
      exact ih (List.forall_mem_cons.mpr ⟨faithful_of_decodeToken htoken, hfound⟩) h

theorem names_of_preamble {cursor next : Cursor} {id version : Int32}
    {packageName namespaceName semanticVersion : Option String}
    (h : preamble.run cursor =
      .ok ((id, version, packageName, namespaceName, semanticVersion), next)) :
    namespaceName ≠ some "" ∧ semanticVersion ≠ some "" := by
  obtain ⟨_, _, -, h⟩ := run_bind_eq_ok h
  obtain ⟨recorded, _, -, h⟩ := run_bind_eq_ok h
  by_cases hversion : recorded = recordVersion
  · rw [if_neg (not_not_intro hversion)] at h
    obtain ⟨_, _, -, h⟩ := run_bind_eq_ok h
    obtain ⟨_, _, -, h⟩ := run_bind_eq_ok h
    obtain ⟨_, _, hnamespace, h⟩ := run_bind_eq_ok h
    obtain ⟨_, _, hsemantic, h⟩ := run_bind_eq_ok h
    cases h
    exact ⟨ne_empty_of_decodeText hnamespace, ne_empty_of_decodeText hsemantic⟩
  · rw [if_pos hversion] at h
    cases h

theorem faithful_of_contents {data : List UInt8} {id version : Int32}
    {packageName namespaceName semanticVersion : Option String} {read : List Token}
    (h : contents data =
      .ok ((id, version, packageName, namespaceName, semanticVersion), read)) :
    namespaceName ≠ some "" ∧ semanticVersion ≠ some "" ∧
      ∀ token ∈ read, Faithful token ∧ reread token = token := by
  obtain ⟨⟨fields, cursor⟩, hpreamble, h⟩ := bind_eq_ok.mp h
  obtain ⟨_, hread, h⟩ := bind_eq_ok.mp h
  cases h
  obtain ⟨hnamespace, hsemantic⟩ := names_of_preamble hpreamble
  exact ⟨hnamespace, hsemantic, faithful_of_decodeTokens (by simp) hread⟩

variable {ir : Ir} {data : List UInt8}

/-- A schema as it is read from a record: sound, and of tokens that come back. -/
structure Settled (ir : Ir) : Prop where
  sound : Sound ir
  namespaceName : ir.namespaceName ≠ some ""
  semanticVersion : ir.semanticVersion ≠ some ""
  tokens : ∀ token ∈ tokens ir, Faithful token ∧ reread token = token

theorem settled_of_decode (h : decode data = .ok ir) : Settled ir := by
  obtain ⟨id, version, packageName, namespaceName, semanticVersion, header, messages, start,
    hcontents, hheader, hmessages, hcreate, rfl⟩ := decode_eq_ok.mp h
  obtain ⟨hnamespace, hsemantic, hread⟩ := faithful_of_contents hcontents
  obtain ⟨hkeptNamespace, hkeptSemantic, -⟩ := attributes_addAll messages hcreate
  exact ⟨sound_addAll hcreate hheader rfl hmessages, hkeptNamespace ▸ hnamespace,
    hkeptSemantic ▸ hsemantic, fun token htoken => hread token (mem_tokens_addAll hcreate htoken)⟩

/-- Only the index of types may come back another. -/
theorem rereadIr_of_settled (h : Settled ir) :
    rereadIr ir = { ir with types := Ir.indexOf ir.header.tokens ir.messages.values } := by
  have hrun : ∀ run : List Token, (∀ token ∈ run, token ∈ tokens ir) → run.map reread = run := by
    intro run hmem
    rw [List.map_congr_left fun token htoken => (h.tokens token (hmem token htoken)).2]
    exact List.map_id _
  have hheader : ir.header.tokens.map reread = ir.header.tokens :=
    hrun _ fun token htoken => List.mem_append_left _ htoken
  have hmessages : ir.messages.map (List.map reread) = ir.messages := by
    refine Table.map_of_forall fun entry hentry => hrun _ fun token htoken => ?_
    exact List.mem_append_right _
      (List.mem_flatten.mpr ⟨entry.2, List.mem_map.mpr ⟨entry, hentry, rfl⟩, htoken⟩)
  have htypes : (Ir.indexOf ir.header.tokens ir.messages.values).map (List.map reread) =
      Ir.indexOf ir.header.tokens ir.messages.values :=
    Table.map_of_forall fun entry hentry => hrun _ (Ir.mem_of_indexOf hentry)
  simp only [rereadIr, keptText, h.namespaceName, h.semanticVersion, if_false, hheader, hmessages,
    htypes]

/-- The messages of a record that is read. In ascending order they are all
there is to the index of types. -/
theorem types_of_decode (h : decode data = .ok ir) :
    ∃ messages, runs data = .ok messages ∧ ((messages.map (·.1)).Pairwise (· < ·) →
      ir.types = Ir.indexOf ir.header.tokens ir.messages.values) := by
  obtain ⟨id, version, packageName, namespaceName, semanticVersion, header, messages, start,
    hcontents, hheader, hmessages, hcreate, rfl⟩ := decode_eq_ok.mp h
  refine ⟨messages, ?_, types_addAll hcreate⟩
  have hpos := hheader.pos
  refine bind_eq_ok.mpr ⟨_, hcontents, bind_eq_ok.mpr ⟨_, headerEnd_append hheader _, ?_⟩⟩
  change Except.ok _ = _
  rw [Nat.sub_add_cancel hpos, List.drop_left, messageRuns_flatMap hmessages]

/-- What was read is written so that the same is read again, except that the
index of types is then the one of the messages that are left: an earlier
message of the same identity is no longer there, and later ones are in order. -/
theorem decode_encode_of_decode {written : List UInt8} (hdecode : decode data = .ok ir)
    (hencode : encode ir = .ok written) :
    ∃ again messages, decode written = .ok again ∧ again.packageName = ir.packageName ∧
      again.namespaceName = ir.namespaceName ∧ again.id = ir.id ∧ again.version = ir.version ∧
      again.semanticVersion = ir.semanticVersion ∧ again.byteOrder = ir.byteOrder ∧
      again.header = ir.header ∧ again.messages = ir.messages ∧ encode again = .ok written ∧
      runs data = .ok messages ∧
      ((messages.map (·.1)).Pairwise (· < ·) →
        again.types = ir.types ∧ (again == ir) = true) := by
  have hsettled := settled_of_decode hdecode
  obtain ⟨hfit, rfl⟩ := encode_eq_ok.mp hencode
  have hagain := decode_wire hsettled.sound hfit fun token htoken =>
    wideValues_of_kept (hsettled.tokens token htoken).1.kept
  rw [rereadIr_of_settled hsettled] at hagain
  obtain ⟨messages, hmessages, htypes⟩ := types_of_decode hdecode
  refine ⟨_, messages, hagain, rfl, rfl, rfl, rfl, rfl, rfl, rfl, rfl, hencode, hmessages, ?_⟩
  intro hascending
  rw [← htypes hascending]
  exact ⟨rfl, by simp [Ir.beq_iff, HeaderStructure.beq_iff]⟩

/-- A token in an odd spelling: ordinals of the last two kinds that stand for
nothing, a constant in a block that is wider than its primitive, and a
description that is not UTF-8. -/
def oddToken (signal primitive : UInt8) (name : String) (constant : List UInt8) : List UInt8 :=
  List.replicate 28 0 ++ [signal, primitive, 99, 77] ++ Bytes.prefixed (Text.utf8 name) ++
    Bytes.prefixed constant ++ List.replicate 14 0 ++ Bytes.prefixed [255]

def oddRecord : List UInt8 :=
  List.replicate 18 0 ++ oddToken 3 0 "messageHeader" [] ++ oddToken 17 7 "blockLength" [] ++
    oddToken 0 7 "templateId" [1, 2, 3, 4, 5] ++ oddToken 99 7 "schemaId" [] ++
    oddToken 17 1 "version" [65, 66] ++ oddToken 4 0 "" [] ++
    oddToken 1 0 "M" [] ++ oddToken 2 0 "M" []

theorem decode_encode_of_decode_oddRecord :
    ∃ ir written again, decode oddRecord = .ok ir ∧ encode ir = .ok written ∧
      written ≠ oddRecord ∧ decode written = .ok again ∧ (again == ir) = true := by
  have hisOk : (decode oddRecord >>= encode).isOk = true := by decide +kernel
  have hother : (decode oddRecord >>= encode).toOption ≠ some oddRecord := by decide +kernel
  have hruns : (runs oddRecord).toOption.map (·.map (·.1)) = some [0] := by decide +kernel
  cases hwritten : decode oddRecord >>= encode with
  | error error =>
    rw [hwritten] at hisOk
    cases hisOk
  | ok written =>
    obtain ⟨ir, hdecode, hencode⟩ := bind_eq_ok.mp hwritten
    obtain ⟨again, messages, hagain, -, -, -, -, -, -, -, -, -, hmessages, hsame⟩ :=
      decode_encode_of_decode hdecode hencode
    refine ⟨ir, written, again, hdecode, hencode, ?_, hagain, (hsame ?_).2⟩
    · rintro rfl
      exact hother (by rw [hwritten]; rfl)
    · rw [hmessages] at hruns
      have hids : messages.map (·.1) = [0] := Option.some.inj hruns
      rw [hids]
      exact List.pairwise_singleton _ _

end SimpleBinary.Record
