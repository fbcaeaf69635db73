import SimpleBinary.Proofs.Record.Kept
import SimpleBinary.Proofs.Record.Runs

/-! Whole records. A compiled schema is written exactly when each of its texts
and values fits in a block; what is then read is the same schema, its index
of types built up anew, and each value as its block gives it back. -/
namespace SimpleBinary.Record

def preambleParts (ir : Ir) : List (RecordPart × List UInt8) :=
  [(.packageName, textBlock ir.packageName), (.namespaceName, textBlock ir.namespaceName),
    (.semanticVersion, textBlock ir.semanticVersion)]

def allParts (ir : Ir) : List (RecordPart × List UInt8) :=
  preambleParts ir ++ (tokens ir).flatMap parts

def preambleBytes (ir : Ir) : List UInt8 :=
  [ir.id, recordVersion, ir.version].flatMap Bytes.ofWord32 ++ partBytes (preambleParts ir)

def tokenBytes (token : Token) : List UInt8 := encodeFixed token ++ partBytes (parts token)

def wire (ir : Ir) : List UInt8 :=
  [ir.id, recordVersion, ir.version].flatMap Bytes.ofWord32 ++ partBytes (preambleParts ir) ++
    (tokens ir).flatMap tokenBytes

variable {ir : Ir} {data : List UInt8}

theorem wire_eq (ir : Ir) : wire ir = preambleBytes ir ++ (tokens ir).flatMap tokenBytes := rfl

theorem fit_allParts_iff :
    Fit (allParts ir) ↔ Fit (preambleParts ir) ∧ ∀ token ∈ tokens ir, Fit (parts token) := by
  simp only [Fit, allParts, List.forall_mem_append, List.forall_mem_flatMap]

theorem encodeTokens_of_fit {run : List Token} (h : ∀ token ∈ run, Fit (parts token)) :
    encodeTokens run = .ok (run.flatMap tokenBytes) := by
  induction run with
  | nil => rfl
  | cons token rest ih =>
    rw [encodeTokens, encodeToken_of_fit (h token List.mem_cons_self),
      ih fun other hother => h other (List.mem_cons_of_mem _ hother)]
    rfl

theorem encodeTokens_of_not_fit {run : List Token} (h : ¬ ∀ token ∈ run, Fit (parts token)) :
    ∃ which, encodeTokens run = .error (.encode which) := by
  induction run with
  | nil => exact absurd (fun _ htoken => nomatch htoken) h
  | cons token rest ih =>
    rw [encodeTokens]
    by_cases htoken : Fit (parts token)
    · have hrest : ¬ ∀ other ∈ rest, Fit (parts other) := by
        intro hrest
        exact h (List.forall_mem_cons.mpr ⟨htoken, hrest⟩)
      obtain ⟨which, hwhich⟩ := ih hrest
      exact ⟨which, by rw [encodeToken_of_fit htoken, hwhich]; rfl⟩
    · obtain ⟨which, hwhich⟩ := encodeToken_of_not_fit htoken
      exact ⟨which, by rw [hwhich]; rfl⟩

theorem encode_eq (ir : Ir) :
    encode ir = (do
      let first ← encodeParts (preambleParts ir)
      let body ← encodeTokens (tokens ir)
      return [ir.id, recordVersion, ir.version].flatMap Bytes.ofWord32 ++ first ++ body) := by
  have hnil : (.ok [] : Except Error (List UInt8)) = pure [] := rfl
  simp only [encode, preambleParts, encodeParts, encodeText, Bytes.text?, textBlock, hnil,
    bind_assoc, pure_bind, List.append_assoc, List.append_nil]

theorem encode_of_fit (h : Fit (allParts ir)) : encode ir = .ok (wire ir) := by
  obtain ⟨hpreamble, htokens⟩ := fit_allParts_iff.mp h
  rw [encode_eq, encodeParts_of_fit hpreamble, encodeTokens_of_fit htokens]
  rfl

theorem encode_of_not_fit (h : ¬ Fit (allParts ir)) :
    ∃ which, encode ir = .error (.encode which) := by
  rw [encode_eq]
  by_cases hpreamble : Fit (preambleParts ir)
  · have htokens : ¬ ∀ token ∈ tokens ir, Fit (parts token) := by
      intro htokens
      exact h (fit_allParts_iff.mpr ⟨hpreamble, htokens⟩)
    obtain ⟨which, hwhich⟩ := encodeTokens_of_not_fit htokens
    exact ⟨which, by rw [encodeParts_of_fit hpreamble, hwhich]; rfl⟩
  · obtain ⟨which, hwhich⟩ := encodeParts_of_not_fit hpreamble
    exact ⟨which, by rw [hwhich]; rfl⟩

theorem encode_eq_ok : encode ir = .ok data ↔ Fit (allParts ir) ∧ data = wire ir := by
  by_cases h : Fit (allParts ir)
  · rw [encode_of_fit h]
    constructor
    · intro heq
      cases heq
      exact ⟨h, rfl⟩
    · rintro ⟨-, rfl⟩
      rfl
  · obtain ⟨which, hwhich⟩ := encode_of_not_fit h
    rw [hwhich]
    exact ⟨nofun, fun hfit => absurd hfit.1 h⟩

theorem tokenBytes_ne_nil (token : Token) : tokenBytes token ≠ [] := by
  intro h
  have hlength := congrArg List.length h
  simp [tokenBytes, encodeFixed] at hlength

theorem length_le_length_flatMap (run : List Token) :
    run.length ≤ (run.flatMap tokenBytes).length := by
  induction run with
  | nil => exact Nat.zero_le _
  | cons token rest ih =>
    have hpos := List.length_pos_iff.mpr (tokenBytes_ne_nil token)
    rw [List.flatMap_cons, List.length_append, List.length_cons]
    omega

theorem decodeTokens_append {token : Token} (hfit : Fit (parts token)) (hwide : WideValues token)
    (found : List Token) (fuel index : Nat) (rest : List UInt8) :
    ∃ next, decodeTokens found (fuel + 1) ⟨index, tokenBytes token ++ rest⟩ =
      decodeTokens (reread token :: found) fuel ⟨next, rest⟩ := by
  obtain ⟨next, hnext⟩ := (exact_decodeToken hfit hwide).reads index rest
  refine ⟨next, ?_⟩
  rw [decodeTokens, if_neg (by simp [tokenBytes_ne_nil]), tokenBytes, hnext]
  rfl

theorem decodeTokens_flatMap {run : List Token} (found : List Token) (index : Nat) {fuel : Nat}
    (hfuel : run.length ≤ fuel) (hfit : ∀ token ∈ run, Fit (parts token))
    (hwide : ∀ token ∈ run, WideValues token) :
    decodeTokens found fuel ⟨index, run.flatMap tokenBytes⟩ =
      .ok (found.reverse ++ run.map reread) := by
  induction run generalizing found index fuel with
  | nil => cases fuel <;> simp [decodeTokens]
  | cons token rest ih =>
    cases fuel with
    | zero => cases hfuel
    | succ fuel =>
      obtain ⟨next, hnext⟩ := decodeTokens_append (hfit token List.mem_cons_self)
        (hwide token List.mem_cons_self) found fuel index (rest.flatMap tokenBytes)
      have hrest := ih (reread token :: found) next (Nat.le_of_succ_le_succ hfuel)
        (fun other hother => hfit other (List.mem_cons_of_mem _ hother))
        (fun other hother => hwide other (List.mem_cons_of_mem _ hother))
      rw [List.flatMap_cons, hnext, hrest]
      simp

theorem exact_preamble (hfit : Fit (preambleParts ir)) :
    Exact preamble (preambleBytes ir) (ir.id, ir.version, keptText ir.packageName,
      keptText ir.namespaceName, keptText ir.semanticVersion) := by
  simp only [Fit, preambleParts, List.forall_mem_cons, List.not_mem_nil, false_implies,
    implies_true, and_true] at hfit
  obtain ⟨hpackage, hnamespace, hsemantic⟩ := hfit
  unfold preamble preambleBytes
  simp only [preambleParts, partBytes, List.flatMap_cons, List.flatMap_nil, List.append_nil,
    List.append_assoc]
  refine .bind (.word32 .id ir.id) (.bind (.word32 .recordVersion recordVersion) ?_)
  simp only [ne_eq, not_true_eq_false, if_false]
  refine .bind (.word32 .schemaVersion ir.version) ?_
  refine .bind (exact_decodeText .packageName hpackage) ?_
  refine .bind (exact_decodeText .namespaceName hnamespace) ?_
  exact .bindLast (exact_decodeText .semanticVersion hsemantic) (.pure _)

/-- Behind its preamble a record is read token by token, however many follow. -/
theorem contents_append {run : List Token} (hpreamble : Fit (preambleParts ir))
    (hfit : ∀ token ∈ run, Fit (parts token)) (hwide : ∀ token ∈ run, WideValues token) :
    contents (preambleBytes ir ++ run.flatMap tokenBytes) = .ok ((ir.id, ir.version,
      keptText ir.packageName, keptText ir.namespaceName, keptText ir.semanticVersion),
      run.map reread) := by
  obtain ⟨next, hnext⟩ := (exact_preamble hpreamble).reads 0 (run.flatMap tokenBytes)
  have hfuel : run.length ≤ (preambleBytes ir ++ run.flatMap tokenBytes).length := by
    have hle := length_le_length_flatMap run
    rw [List.length_append]
    omega
  have hread := decodeTokens_flatMap [] next hfuel hfit hwide
  exact bind_eq_ok.mpr ⟨_, hnext, bind_eq_ok.mpr ⟨_, hread, rfl⟩⟩

/-- What every compiled schema has whose header and messages are closed runs
with the header in the order of bytes of the whole. -/
structure Sound (ir : Ir) : Prop where
  header : Token.Bracketed .beginComposite ir.header.tokens
  members : HeaderStructure.ofTokens ir.header.tokens = .ok ir.header
  byteOrder : ir.byteOrder = byteOrderOf ir.header.tokens
  messages : ∀ run ∈ ir.messages.entries, MessageRun run.1 run.2

def rereadIr (ir : Ir) : Ir :=
  { ir with
    namespaceName := keptText ir.namespaceName
    semanticVersion := keptText ir.semanticVersion
    header := { ir.header with tokens := ir.header.tokens.map reread }
    messages := ir.messages.map (List.map reread)
    types := (Ir.indexOf ir.header.tokens ir.messages.values).map (List.map reread) }

theorem keeps_reread : Ir.Keeps reread where
  signal _ := rfl
  name _ := rfl
  id _ := rfl
  primitive _ := rfl
  byteOrder _ := rfl

theorem byteOrderOf_map {change : Token → Token} (hkeeps : Ir.Keeps change) (header : List Token) :
    byteOrderOf (header.map change) = byteOrderOf header := by
  unfold byteOrderOf
  rw [List.find?_map, Option.map_map]
  congr 2
  · funext token
    exact hkeeps.byteOrder token
  · congr 1
    funext token
    simp [hkeeps.signal]

theorem MessageRun.map {change : Token → Token} (hkeeps : Ir.Keeps change) {id : Int32}
    {tokens : List Token} (h : MessageRun id tokens) : MessageRun id (tokens.map change) := by
  refine ⟨(Token.Bracketed.map_iff hkeeps.signal).mpr h.1, ?_⟩
  rw [List.head?_map, Option.map_map, ← h.2]
  congr 1
  funext token
  exact hkeeps.id token

theorem decode_wire (hsound : Sound ir) (hfit : Fit (allParts ir))
    (hwide : ∀ token ∈ tokens ir, WideValues token) :
    decode (wire ir) = .ok (rereadIr ir) := by
  have hvalues : (tokens ir).map reread = ir.header.tokens.map reread ++
      (ir.messages.map (List.map reread)).entries.flatMap (·.2) := by
    rw [tokens, List.map_append, Table.values, List.map_flatten, List.flatMap_def]
    simp only [Table.entries_map, List.map_map]
    rfl
  have hmembers := Ir.ofTokens_map keeps_reread hsound.members
  obtain ⟨hpreamble, htokens⟩ := fit_allParts_iff.mp hfit
  refine decode_eq_ok.mpr ⟨ir.id, ir.version, keptText ir.packageName, keptText ir.namespaceName,
    keptText ir.semanticVersion, _, _, _, hvalues ▸ contents_append hpreamble htokens hwide,
    (Token.Bracketed.map_iff keeps_reread.signal).mpr hsound.header, ?_,
    Ir.create_eq_ok.mpr ⟨_, hmembers, rfl⟩, ?_⟩
  · intro run hrun
    obtain ⟨original, horiginal, rfl⟩ := List.mem_map.mp hrun
    exact (hsound.messages original horiginal).map keeps_reread
  · have htypes := Ir.indexOf_map keeps_reread ir.header.tokens ir.messages.values
    rw [Ir.addAll_eq, keptText_getD, byteOrderOf_map keeps_reread, ← hsound.byteOrder,
      Table.addAll_entries, rereadIr, ← htypes, Ir.indexOf, Table.values, List.map_map,
      Table.entries_map, List.map_map]
    rfl

/-- A schema whose index is that of its runs comes back the same exactly when
each of its tokens does. -/
theorem rereadIr_same_iff (htypes : ir.types = Ir.indexOf ir.header.tokens ir.messages.values)
    (hnamespace : ir.namespaceName ≠ some "") (hsemantic : ir.semanticVersion ≠ some "") :
    (rereadIr ir == ir) = true ↔ ∀ token ∈ tokens ir, (reread token == token) = true := by
  rw [Ir.beq_iff, HeaderStructure.beq_iff]
  simp only [rereadIr, keptText, hnamespace, hsemantic, if_false, true_and, and_true,
    Token.map_beq_iff, Table.map_beq_iff, ← htypes]
  constructor
  · rintro ⟨hheader, hmessages, -⟩ token htoken
    rcases List.mem_append.mp htoken with htoken | htoken
    · exact hheader token htoken
    · obtain ⟨run, hrun, htoken⟩ := List.mem_flatten.mp htoken
      obtain ⟨entry, hentry, rfl⟩ := List.mem_map.mp hrun
      exact hmessages entry hentry token htoken
  · intro h
    have hmessages : ∀ entry ∈ ir.messages.entries, ∀ token ∈ entry.2, token ∈ tokens ir := by
      intro entry hentry token htoken
      exact List.mem_append_right _
        (List.mem_flatten.mpr ⟨entry.2, List.mem_map.mpr ⟨entry, hentry, rfl⟩, htoken⟩)
    refine ⟨fun token htoken => h token (List.mem_append_left _ htoken),
      fun entry hentry token htoken => h token (hmessages entry hentry token htoken),
      fun entry hentry token htoken => h token ?_⟩
    exact Ir.mem_of_indexOf (htypes ▸ hentry) token htoken

section
variable {packageName : String} {namespaceName semanticVersion : Option String}
  {id version : Int32} {byteOrder : ByteOrder} {header : List Token} {start : Ir}
  {runs : List (Int32 × List Token)}

theorem entries_addAll
    (hcreate : Ir.create packageName namespaceName id version semanticVersion byteOrder header =
      .ok start)
    (hascending : (runs.map (·.1)).Pairwise (· < ·)) :
    (start.addAll runs).messages.entries = runs := by
  have hsorted : runs.Pairwise fun a b => compare a.1 b.1 = .lt :=
    (List.pairwise_map.mp hascending).imp Std.compare_eq_lt.mpr
  obtain ⟨_, -, rfl⟩ := Ir.create_eq_ok.mp hcreate
  rw [Ir.addAll_eq]
  exact Table.entries_addAll hsorted

theorem mem_entries_addAll {run : Int32 × List Token}
    (hcreate : Ir.create packageName namespaceName id version semanticVersion byteOrder header =
      .ok start)
    (h : run ∈ (start.addAll runs).messages.entries) : run ∈ runs := by
  obtain ⟨_, -, rfl⟩ := Ir.create_eq_ok.mp hcreate
  rw [Ir.addAll_eq] at h
  rcases Table.mem_addAll h with h | h
  · cases h
  · exact h

theorem header_addAll (runs : List (Int32 × List Token))
    (hcreate : Ir.create packageName namespaceName id version semanticVersion byteOrder header =
      .ok start) :
    HeaderStructure.ofTokens header = .ok (start.addAll runs).header ∧
      (start.addAll runs).header.tokens = header := by
  obtain ⟨structured, hmembers, rfl⟩ := Ir.create_eq_ok.mp hcreate
  rw [Ir.addAll_eq]
  exact ⟨hmembers, (Ir.ofTokens_eq_ok.mp hmembers).1⟩

theorem attributes_addAll (runs : List (Int32 × List Token))
    (hcreate : Ir.create packageName namespaceName id version semanticVersion byteOrder header =
      .ok start) :
    (start.addAll runs).namespaceName = namespaceName ∧
      (start.addAll runs).semanticVersion = semanticVersion ∧
      (start.addAll runs).byteOrder = byteOrder := by
  obtain ⟨_, -, rfl⟩ := Ir.create_eq_ok.mp hcreate
  rw [Ir.addAll_eq]
  exact ⟨rfl, rfl, rfl⟩

theorem types_addAll
    (hcreate : Ir.create packageName namespaceName id version semanticVersion byteOrder header =
      .ok start)
    (hascending : (runs.map (·.1)).Pairwise (· < ·)) :
    (start.addAll runs).types = Ir.indexOf (start.addAll runs).header.tokens
      (start.addAll runs).messages.values := by
  rw [(header_addAll runs hcreate).2, Table.values, entries_addAll hcreate hascending]
  obtain ⟨_, -, rfl⟩ := Ir.create_eq_ok.mp hcreate
  rw [Ir.addAll_eq]
  rfl

theorem mem_tokens_addAll {token : Token}
    (hcreate : Ir.create packageName namespaceName id version semanticVersion byteOrder header =
      .ok start)
    (h : token ∈ tokens (start.addAll runs)) : token ∈ header ++ runs.flatMap (·.2) := by
  rcases List.mem_append.mp h with h | h
  · rw [(header_addAll runs hcreate).2] at h
    exact List.mem_append_left _ h
  · obtain ⟨run, hrun, htoken⟩ := List.mem_flatten.mp h
    obtain ⟨entry, hentry, rfl⟩ := List.mem_map.mp hrun
    exact List.mem_append_right _
      (List.mem_flatMap.mpr ⟨entry, mem_entries_addAll hcreate hentry, htoken⟩)

theorem sound_addAll
    (hcreate : Ir.create packageName namespaceName id version semanticVersion byteOrder header =
      .ok start)
    (hheader : Token.Bracketed .beginComposite header) (horder : byteOrder = byteOrderOf header)
    (hruns : ∀ run ∈ runs, MessageRun run.1 run.2) : Sound (start.addAll runs) := by
  obtain ⟨hmembers, htokens⟩ := header_addAll runs hcreate
  constructor
  · rwa [htokens]
  · rw [htokens, hmembers]
  · rw [htokens, (attributes_addAll runs hcreate).2.2, horder]
  · intro run hrun
    exact hruns run (mem_entries_addAll hcreate hrun)

/-- A schema that closed runs build up comes back from its record the same, if
each of its tokens is one that a record keeps. -/
theorem decode_encode_same
    (hcreate : Ir.create packageName namespaceName id version semanticVersion byteOrder header =
      .ok start)
    (hascending : (runs.map (·.1)).Pairwise (· < ·))
    (hheader : Token.Bracketed .beginComposite header)
    (horder : (header.find? (·.signal = .encoding)).map (·.encoding.byteOrder) = some byteOrder)
    (hruns : ∀ run ∈ runs, MessageRun run.1 run.2)
    (hnamespace : namespaceName ≠ some "") (hsemantic : semanticVersion ≠ some "")
    (htokens : ∀ token ∈ header ++ runs.flatMap (·.2), Faithful token) :
    ((∃ data, encode (start.addAll runs) = .ok data) ↔ Fit (allParts (start.addAll runs))) ∧
      (¬ Fit (allParts (start.addAll runs)) →
        ∃ which, encode (start.addAll runs) = .error (.encode which)) ∧
      ∀ data, encode (start.addAll runs) = .ok data →
        ∃ ir, decode data = .ok ir ∧ (ir == start.addAll runs) = true := by
  have hsound : Sound (start.addAll runs) := by
    refine sound_addAll hcreate hheader ?_ hruns
    rw [byteOrderOf, horder, Option.getD_some]
  have hfaithful : ∀ token ∈ tokens (start.addAll runs), Faithful token := by
    intro token htoken
    exact htokens token (mem_tokens_addAll hcreate htoken)
  obtain ⟨hkeptNamespace, hkeptSemantic, -⟩ := attributes_addAll runs hcreate
  refine ⟨?_, encode_of_not_fit, ?_⟩
  · constructor
    · rintro ⟨data, hdata⟩
      exact (encode_eq_ok.mp hdata).1
    · intro hfit
      exact ⟨_, encode_of_fit hfit⟩
  · intro data hdata
    obtain ⟨hfit, rfl⟩ := encode_eq_ok.mp hdata
    refine ⟨_, decode_wire hsound hfit fun token htoken =>
      wideValues_of_kept (hfaithful token htoken).kept, ?_⟩
    rw [rereadIr_same_iff (types_addAll hcreate hascending) (hkeptNamespace ▸ hnamespace)
      (hkeptSemantic ▸ hsemantic)]
    intro token htoken
    exact reread_same (hfaithful token htoken)

end

/-- Two messages with a value of each kind. -/
def mixedRuns : List (Int32 × List Token) :=
  [(1, [{ signal := .beginMessage, name := "A", id := 1, description := some "first" },
      { signal := .encoding, name := "n"
        encoding := { primitive := some .uint64, minValue := some (.long (-1) 8) } },
      { signal := .endMessage, name := "A", id := 1 }]),
    (2, [{ signal := .beginMessage, name := "B", id := 2 },
      { signal := .beginComposite, name := "pair" },
      { signal := .encoding, name := "x"
        encoding := { primitive := some .float
                      constValue := some (.double (.ofSingleBits 1069547520) 4) } },
      { signal := .encoding, name := "code"
        encoding := { primitive := some .char, characterEncoding := some "UTF-8"
                      constValue := some (.bytes [65, 66] "UTF-8") } },
      { signal := .endComposite, name := "pair" },
      { signal := .endMessage, name := "B", id := 2 }])]

theorem decode_encode_same_mixedRuns :
    ∃ start data ir, Ir.create "p" none 7 0 none .little Ir.plainHeader = .ok start ∧
      encode (start.addAll mixedRuns) = .ok data ∧ decode data = .ok ir ∧
      (ir == start.addAll mixedRuns) = true := by
  obtain ⟨start, hstart⟩ : ∃ start,
      Ir.create "p" none 7 0 none .little Ir.plainHeader = .ok start :=
    ⟨_, rfl⟩
  have hruns : ∀ run ∈ mixedRuns, MessageRun run.1 run.2 := by decide
  obtain ⟨hiff, -, hround⟩ := decode_encode_same hstart (by decide) (by decide) (by decide) hruns
    (by decide) (by decide) (by decide +kernel)
  have hfit : Fit (allParts (start.addAll mixedRuns)) := by
    cases hstart
    decide +kernel
  obtain ⟨data, hdata⟩ := hiff.mpr hfit
  obtain ⟨ir, hir, hsame⟩ := hround data hdata
  exact ⟨start, data, ir, hstart, hdata, hir, hsame⟩

end SimpleBinary.Record
