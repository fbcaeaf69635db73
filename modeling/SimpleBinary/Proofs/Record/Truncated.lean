import SimpleBinary.Proofs.Record.RoundTrip

/-! Records that are cut short. A cut behind the header or behind a message
leaves the record of a schema with fewer messages. Any other cut is refused:
inside a token there is too little to read, and between two tokens of a run
nothing closes the run. -/
namespace SimpleBinary.Record
open Token (Bracketed findEnd)

/-- A cut through lists that stand one behind the other falls between two of
them or inside one. -/
theorem cut_flatMap {α β : Type} {f : α → List β} {items : List α} {front back : List β}
    (h : items.flatMap f = front ++ back) :
    (∃ before after, items = before ++ after ∧ front = before.flatMap f) ∨
      ∃ before item after count, items = before ++ [item] ++ after ∧ 0 < count ∧
        count < (f item).length ∧ front = before.flatMap f ++ (f item).take count := by
  induction items generalizing front with
  | nil =>
    have hfront : front = [] := (List.append_eq_nil_iff.mp h.symm).1
    exact .inl ⟨[], [], rfl, hfront⟩
  | cons item rest ih =>
    rw [List.flatMap_cons] at h
    rcases List.append_eq_append_iff.mp h with ⟨more, rfl, hrest⟩ | ⟨left, hitem, -⟩
    · rcases ih hrest with ⟨before, after, rfl, rfl⟩ |
        ⟨before, inner, after, count, rfl, hpos, hcount, rfl⟩
      · exact .inl ⟨item :: before, after, rfl, by simp⟩
      · exact .inr ⟨item :: before, inner, after, count, rfl, hpos, hcount, by simp⟩
    · -- at either end of the item the cut is still one between two of them
      by_cases hfront : front = []
      · exact .inl ⟨[], item :: rest, rfl, hfront⟩
      by_cases hleft : left = []
      · refine .inl ⟨[item], rest, rfl, ?_⟩
        simp [hitem, hleft]
      · refine .inr ⟨[], item, rest, front.length, rfl, List.length_pos_iff.mpr hfront, ?_, ?_⟩
        · simpa [hitem] using List.length_pos_iff.mpr hleft
        · simp [hitem]

section
variable {ir : Ir} {data : List UInt8}

theorem decodeTokens_cut {before : List Token} {token : Token} {count : Nat}
    (hfit : ∀ other ∈ before ++ [token], Fit (parts other))
    (hwide : ∀ other ∈ before ++ [token], WideValues other) (hpos : 0 < count)
    (hcount : count < (tokenBytes token).length) (found : List Token) (index : Nat) {fuel : Nat}
    (hfuel : before.length < fuel) :
    ∃ fault, decodeTokens found fuel
      ⟨index, before.flatMap tokenBytes ++ (tokenBytes token).take count⟩ =
        .error (.decode fault) := by
  induction before generalizing found index fuel with
  | nil =>
    obtain ⟨fault, hfault⟩ := (exact_decodeToken (hfit token (by simp))
      (hwide token (by simp))).refuses index count hcount
    have hsome : ((tokenBytes token).take count).isEmpty = false := by
      simp [tokenBytes_ne_nil, Nat.ne_of_gt hpos]
    cases fuel with
    | zero => cases hfuel
    | succ fuel =>
      refine ⟨fault, ?_⟩
      rw [decodeTokens, List.flatMap_nil, List.nil_append, hsome, tokenBytes, hfault]
      rfl
  | cons first rest ih =>
    cases fuel with
    | zero => cases hfuel
    | succ fuel =>
      obtain ⟨next, hnext⟩ := decodeTokens_append (hfit first (by simp)) (hwide first (by simp))
        found fuel index (rest.flatMap tokenBytes ++ (tokenBytes token).take count)
      rw [List.flatMap_cons, List.append_assoc, hnext]
      apply ih
      · exact fun other hother => hfit other (List.mem_cons_of_mem _ hother)
      · exact fun other hother => hwide other (List.mem_cons_of_mem _ hother)
      · exact Nat.lt_of_succ_lt_succ hfuel

theorem headerEnd_cut {header : List Token} (h : Bracketed .beginComposite header) {count : Nat}
    (hcount : count < header.length) :
    ∃ fault, headerEnd (header.take count) = .error (.decode fault) := by
  have hopen := h.findEnd_cut hcount
  cases htokens : header.take count with
  | nil => exact ⟨_, rfl⟩
  | cons token rest =>
    rw [htokens] at hopen
    rw [headerEnd]
    split
    · exact ⟨_, by rw [hopen]⟩
    · exact ⟨_, rfl⟩

theorem addMessages_cut {before : List (Int32 × List Token)} {run : Int32 × List Token}
    {count : Nat} (h : ∀ other ∈ before ++ [run], MessageRun other.1 other.2)
    (hpos : 0 < count) (hcount : count < run.2.length) (index : Nat) {fuel : Nat}
    (hfuel : (before.flatMap (·.2)).length < fuel) :
    ∃ fault, addMessages ir index fuel (before.flatMap (·.2) ++ run.2.take count) =
      .error (.decode fault) := by
  induction before generalizing ir index fuel with
  | nil =>
    have hopen := (h run (by simp)).1.findEnd_cut hcount
    cases fuel with
    | zero => cases hfuel
    | succ fuel =>
      cases htokens : run.2.take count with
      | nil =>
        rcases List.take_eq_nil_iff.mp htokens with hzero | hnil
        · omega
        · simp [hnil] at hcount
      | cons token rest =>
        rw [htokens] at hopen
        rw [List.flatMap_nil, List.nil_append, addMessages]
        split
        · exact ⟨_, rfl⟩
        · exact ⟨_, by rw [hopen]⟩
  | cons first rest ih =>
    cases fuel with
    | zero => cases hfuel
    | succ fuel =>
      obtain ⟨next, hnext⟩ := @addMessages_append ir _ _ (h first (by simp)) index fuel
        (rest.flatMap (·.2) ++ run.2.take count)
      rw [List.flatMap_cons, List.append_assoc, hnext]
      apply ih
      · exact fun other hother => h other (List.mem_cons_of_mem _ hother)
      · have hfirst := (h first (by simp)).1.pos
        rw [List.flatMap_cons, List.length_append] at hfuel
        omega

def leading (ir : Ir) (count : Nat) : List UInt8 :=
  preambleBytes ir ++
    (ir.header.tokens ++ (ir.messages.values.take count).flatten).flatMap tokenBytes

/-- Where the header of a record ends, and where each of its messages does:
the header is followed by no message yet. -/
def runEnd (ir : Ir) (count : Nat) : Nat := (leading ir count).length

theorem wire_eq_leading (ir : Ir) (count : Nat) :
    wire ir = leading ir count ++ (ir.messages.values.drop count).flatten.flatMap tokenBytes := by
  rw [wire_eq, leading, List.append_assoc, ← List.flatMap_append, List.append_assoc,
    ← List.flatten_append, List.take_append_drop, tokens]

theorem take_runEnd (ir : Ir) (count : Nat) :
    (wire ir).take (runEnd ir count) = leading ir count := by
  rw [wire_eq_leading ir count, runEnd, List.take_left]

theorem runEnd_lt_succ (hsound : Sound ir) {count : Nat}
    (hcount : count < ir.messages.values.length) : runEnd ir count < runEnd ir (count + 1) := by
  have hmem : ir.messages.values[count] ∈ ir.messages.values := List.getElem_mem hcount
  obtain ⟨entry, hentry, hrun⟩ := List.mem_map.mp hmem
  have hpos := (hsound.messages entry hentry).1.pos
  have hle := length_le_length_flatMap ir.messages.values[count]
  rw [← hrun] at hle
  simp only [runEnd, leading, List.take_succ_eq_append_getElem hcount, List.flatten_append,
    List.flatten_singleton, List.flatMap_append, List.length_append, ← hrun]
  omega

theorem runEnd_lt (hsound : Sound ir) {first second : Nat} (hlt : first < second)
    (hsecond : second ≤ ir.messages.values.length) : runEnd ir first < runEnd ir second := by
  induction second with
  | zero => cases hlt
  | succ second ih =>
    have hstep := runEnd_lt_succ hsound hsecond
    rcases Nat.lt_succ_iff_lt_or_eq.mp hlt with hlt | rfl
    · exact Nat.lt_trans (ih hlt (Nat.le_of_succ_le hsecond)) hstep
    · exact hstep

/-- A message ends no later than the first messages do exactly when it is one
of them. -/
theorem runEnd_le_iff (hsound : Sound ir) {index count : Nat}
    (hindex : index < ir.messages.values.length) (hcount : count ≤ ir.messages.values.length) :
    runEnd ir (index + 1) ≤ runEnd ir count ↔ index < count := by
  constructor
  · intro hle
    by_cases hlt : index < count
    · exact hlt
    · exact absurd (runEnd_lt hsound (by omega : count < index + 1) hindex) (by omega)
  · intro hlt
    by_cases heq : index + 1 = count
    · exact Nat.le_of_eq (congrArg (runEnd ir) heq)
    · exact Nat.le_of_lt (runEnd_lt hsound (by omega) hcount)

section
variable {id version : Int32} {packageName namespaceName semanticVersion : Option String}
  {header : List Token} {count : Nat}

theorem decode_of_contents {fault : Error} (h : contents data = .error fault) :
    decode data = .error fault := by
  rw [decode_eq, h]
  rfl

theorem decode_of_open_header
    (hcontents : contents data = .ok ((id, version, packageName, namespaceName, semanticVersion),
      header.take count))
    (hheader : Bracketed .beginComposite header) (hcount : count < header.length) :
    ∃ fault, decode data = .error (.decode fault) := by
  obtain ⟨fault, hfault⟩ := headerEnd_cut hheader hcount
  refine ⟨fault, ?_⟩
  simp only [decode_eq, hcontents, bind, Except.bind, hfault]

theorem decode_of_open_message {structured : HeaderStructure}
    {before : List (Int32 × List Token)} {run : Int32 × List Token}
    (hcontents : contents data = .ok ((id, version, packageName, namespaceName, semanticVersion),
      header ++ (before.flatMap (·.2) ++ run.2.take count)))
    (hheader : Bracketed .beginComposite header)
    (hmembers : HeaderStructure.ofTokens header = .ok structured)
    (hruns : ∀ other ∈ before ++ [run], MessageRun other.1 other.2) (hpos : 0 < count)
    (hcount : count < run.2.length) :
    ∃ fault, decode data = .error (.decode fault) := by
  rw [decode_of_header hcontents hheader (Ir.create_eq_ok.mpr ⟨structured, hmembers, rfl⟩)]
  apply addMessages_cut hruns hpos hcount
  have := hheader.pos
  simp only [List.length_append]
  omega

end

/-- A record that ends inside its preamble or inside a token is refused. -/
theorem contents_cut (hfit : Fit (allParts ir)) (hwide : ∀ token ∈ tokens ir, WideValues token)
    {front back : List UInt8} (h : wire ir = front ++ back) :
    (∃ before after, tokens ir = before ++ after ∧
        front = preambleBytes ir ++ before.flatMap tokenBytes) ∨
      ∃ fault, contents front = .error (.decode fault) := by
  obtain ⟨hpreamble, htokens⟩ := fit_allParts_iff.mp hfit
  have hexact := exact_preamble hpreamble
  rw [wire_eq] at h
  rcases List.append_eq_append_iff.mp h with
    ⟨more, rfl, hmore⟩ | ⟨left, hleft, -⟩
  · rcases cut_flatMap hmore with ⟨before, after, hrun, rfl⟩ |
      ⟨before, token, after, count, hrun, hpos, hcount, rfl⟩
    · exact .inl ⟨before, after, hrun, rfl⟩
    · have hmem : ∀ other ∈ before ++ [token], other ∈ tokens ir := by
        intro other hother
        rw [hrun]
        exact List.mem_append_left _ hother
      obtain ⟨next, hnext⟩ := hexact.reads 0
        (before.flatMap tokenBytes ++ (tokenBytes token).take count)
      have hfuel : before.length < (preambleBytes ir ++
          (before.flatMap tokenBytes ++ (tokenBytes token).take count)).length := by
        have hle := length_le_length_flatMap before
        simp only [List.length_append, List.length_take]
        omega
      obtain ⟨fault, hfault⟩ := decodeTokens_cut
        (fun other hother => htokens other (hmem other hother))
        (fun other hother => hwide other (hmem other hother)) hpos hcount [] next hfuel
      refine .inr ⟨fault, ?_⟩
      simp only [contents, Cursor.ofBytes, hnext, bind, Except.bind, hfault]
  · by_cases hnil : left = []
    · exact .inl ⟨[], tokens ir, rfl, by simp [hleft, hnil]⟩
    · obtain ⟨fault, hfault⟩ := hexact.refuses 0 front.length (by
        simpa [hleft] using List.length_pos_iff.mpr hnil)
      rw [hleft, List.take_left] at hfault
      exact .inr ⟨fault, by simp only [contents, Cursor.ofBytes, hfault, bind, Except.bind]⟩

/-- A cut between two tokens falls inside the header, behind a whole run, or
inside a message. -/
theorem cut_tokens {before after : List Token} (h : tokens ir = before ++ after) :
    (∃ count < ir.header.tokens.length, before = ir.header.tokens.take count) ∨
      (∃ count ≤ ir.messages.values.length,
        before = ir.header.tokens ++ (ir.messages.values.take count).flatten) ∨
      ∃ messages entry others count, ir.messages.entries = messages ++ [entry] ++ others ∧
        0 < count ∧ count < entry.2.length ∧
        before = ir.header.tokens ++ (messages.flatMap (·.2) ++ entry.2.take count) := by
  rw [tokens] at h
  rcases List.append_eq_append_iff.mp h with ⟨more, rfl, hmore⟩ | ⟨left, hleft, -⟩
  · rw [Table.values, ← List.flatMap_def] at hmore
    rcases cut_flatMap hmore with ⟨messages, others, hentries, rfl⟩ |
      ⟨messages, entry, others, count, hentries, hpos, hcount, rfl⟩
    · refine .inr (.inl ⟨messages.length, ?_, ?_⟩)
      · simp [Table.values, hentries]
      · simp [Table.values, hentries, List.flatMap_def]
    · exact .inr (.inr ⟨messages, entry, others, count, hentries, hpos, hcount, rfl⟩)
  · by_cases hnil : left = []
    · refine .inr (.inl ⟨0, Nat.zero_le _, ?_⟩)
      simp [hleft, hnil]
    · refine .inl ⟨before.length, ?_, ?_⟩
      · simpa [hleft] using List.length_pos_iff.mpr hnil
      · simp [hleft]

/-- A record ends where its header or one of its messages does, or it is
refused. -/
theorem decode_cut (hsound : Sound ir) (hfit : Fit (allParts ir))
    (hwide : ∀ token ∈ tokens ir, WideValues token) {front back : List UInt8}
    (h : wire ir = front ++ back) :
    (∃ count ≤ ir.messages.values.length, front = leading ir count) ∨
      ∃ fault, decode front = .error (.decode fault) := by
  rcases contents_cut hfit hwide h with ⟨before, after, hrun, rfl⟩ | ⟨fault, hfault⟩
  case inr => exact .inr ⟨fault, decode_of_contents hfault⟩
  obtain ⟨hpreamble, htokens⟩ := fit_allParts_iff.mp hfit
  have hmem : ∀ token ∈ before, token ∈ tokens ir := by
    intro token htoken
    rw [hrun]
    exact List.mem_append_left _ htoken
  have hcontents := contents_append hpreamble
    (fun token htoken => htokens token (hmem token htoken))
    (fun token htoken => hwide token (hmem token htoken))
  -- reading changes tokens, but neither their signals nor how many there are
  have hheader := (Bracketed.map_iff keeps_reread.signal).mpr hsound.header
  rcases cut_tokens hrun with ⟨count, hcount, rfl⟩ | ⟨count, hcount, rfl⟩ |
    ⟨messages, entry, others, count, hentries, hpos, hcount, rfl⟩
  · rw [List.map_take] at hcontents
    exact .inr (decode_of_open_header hcontents hheader (by simpa using hcount))
  · exact .inl ⟨count, hcount, rfl⟩
  · let again (run : Int32 × List Token) := (run.1, run.2.map reread)
    have hruns : ∀ run ∈ messages.map again ++ [again entry], MessageRun run.1 run.2 := by
      intro run hrun
      rw [← List.map_singleton, ← List.map_append] at hrun
      obtain ⟨original, horiginal, rfl⟩ := List.mem_map.mp hrun
      refine (hsound.messages original ?_).map keeps_reread
      rw [hentries]
      exact List.mem_append_left _ horiginal
    have htokens : (ir.header.tokens ++ (messages.flatMap (·.2) ++ entry.2.take count)).map reread =
        ir.header.tokens.map reread ++
          ((messages.map again).flatMap (·.2) ++ (again entry).2.take count) := by
      simp [again, List.map_flatMap, List.flatMap_map, List.map_take]
    rw [htokens] at hcontents
    exact .inr (decode_of_open_message hcontents hheader
      (Ir.ofTokens_map keeps_reread hsound.members) hruns hpos (by simpa [again] using hcount))

end

section
variable {packageName : String} {namespaceName semanticVersion : Option String}
  {id version : Int32} {byteOrder : ByteOrder} {header : List Token} {start : Ir}
  {runs : List (Int32 × List Token)}

theorem values_addAll
    (hcreate : Ir.create packageName namespaceName id version semanticVersion byteOrder header =
      .ok start)
    (hascending : (runs.map (·.1)).Pairwise (· < ·)) :
    (start.addAll runs).messages.values = runs.map (·.2) := by
  rw [Table.values, entries_addAll hcreate hascending]

theorem preambleParts_addAll (runs : List (Int32 × List Token)) :
    preambleParts (start.addAll runs) = preambleParts start := by
  rw [Ir.addAll_eq]
  rfl

theorem preambleBytes_addAll (runs : List (Int32 × List Token)) :
    preambleBytes (start.addAll runs) = preambleBytes start := by
  rw [Ir.addAll_eq]
  rfl

theorem ascending_take (hascending : (runs.map (·.1)).Pairwise (· < ·)) (count : Nat) :
    ((runs.take count).map (·.1)).Pairwise (· < ·) :=
  hascending.sublist ((List.take_sublist count runs).map _)

theorem leading_addAll
    (hcreate : Ir.create packageName namespaceName id version semanticVersion byteOrder header =
      .ok start)
    (hascending : (runs.map (·.1)).Pairwise (· < ·)) (count : Nat) :
    leading (start.addAll runs) count = wire (start.addAll (runs.take count)) := by
  rw [leading, wire_eq, tokens, preambleBytes_addAll, preambleBytes_addAll,
    (header_addAll runs hcreate).2, (header_addAll _ hcreate).2, values_addAll hcreate hascending,
    values_addAll hcreate (ascending_take hascending count), List.map_take]

theorem mem_of_mem_take {token : Token} {count : Nat}
    (h : token ∈ header ++ (runs.take count).flatMap (·.2)) :
    token ∈ header ++ runs.flatMap (·.2) := by
  rcases List.mem_append.mp h with h | h
  · exact List.mem_append_left _ h
  · obtain ⟨run, hrun, htoken⟩ := List.mem_flatMap.mp h
    exact List.mem_append_right _ (List.mem_flatMap.mpr ⟨run, List.mem_of_mem_take hrun, htoken⟩)

theorem fit_take
    (hcreate : Ir.create packageName namespaceName id version semanticVersion byteOrder header =
      .ok start)
    (hascending : (runs.map (·.1)).Pairwise (· < ·)) (count : Nat)
    (hfit : Fit (allParts (start.addAll runs))) :
    Fit (allParts (start.addAll (runs.take count))) := by
  rw [fit_allParts_iff, preambleParts_addAll] at hfit ⊢
  refine hfit.imp_right fun htokens token htoken => htokens token ?_
  rw [tokens, (header_addAll runs hcreate).2, values_addAll hcreate hascending, ← List.flatMap_def]
  exact mem_of_mem_take (mem_tokens_addAll hcreate htoken)

theorem decode_wire_same
    (hcreate : Ir.create packageName namespaceName id version semanticVersion byteOrder header =
      .ok start)
    (hascending : (runs.map (·.1)).Pairwise (· < ·))
    (hheader : Bracketed .beginComposite header) (horder : byteOrder = byteOrderOf header)
    (hruns : ∀ run ∈ runs, MessageRun run.1 run.2)
    (hnamespace : namespaceName ≠ some "") (hsemantic : semanticVersion ≠ some "")
    (htokens : ∀ token ∈ header ++ runs.flatMap (·.2), Faithful token)
    (hfit : Fit (allParts (start.addAll runs))) :
    ∃ ir, decode (wire (start.addAll runs)) = .ok ir ∧ (ir == start.addAll runs) = true := by
  have hfaithful : ∀ token ∈ tokens (start.addAll runs), Faithful token := fun token htoken =>
    htokens token (mem_tokens_addAll hcreate htoken)
  obtain ⟨hkeptNamespace, hkeptSemantic, -⟩ := attributes_addAll runs hcreate
  refine ⟨_, decode_wire (sound_addAll hcreate hheader horder hruns) hfit fun token htoken =>
    wideValues_of_kept (hfaithful token htoken).kept, ?_⟩
  rw [rereadIr_same_iff (types_addAll hcreate hascending) (hkeptNamespace ▸ hnamespace)
    (hkeptSemantic ▸ hsemantic)]
  exact fun token htoken => reread_same (hfaithful token htoken)

/-- A record reads as the schema with precisely those messages that are whole
in it, where it ends behind one of them or behind the header; cut anywhere
else it is refused. -/
theorem decode_take
    (hcreate : Ir.create packageName namespaceName id version semanticVersion byteOrder header =
      .ok start)
    (hascending : (runs.map (·.1)).Pairwise (· < ·))
    (hheader : Bracketed .beginComposite header)
    (horder : (header.find? (·.signal = .encoding)).map (·.encoding.byteOrder) = some byteOrder)
    (hruns : ∀ run ∈ runs, MessageRun run.1 run.2)
    (hnamespace : namespaceName ≠ some "") (hsemantic : semanticVersion ≠ some "")
    (htokens : ∀ token ∈ header ++ runs.flatMap (·.2), Faithful token) {data : List UInt8}
    (hdata : encode (start.addAll runs) = .ok data) {n : Nat} (hn : n ≤ data.length) :
    ((∃ ir, decode (data.take n) = .ok ir) ↔
        ∃ count ≤ runs.length, n = runEnd (start.addAll runs) count) ∧
      (∀ count ≤ runs.length, n = runEnd (start.addAll runs) count →
        (∀ index < runs.length, runEnd (start.addAll runs) (index + 1) ≤ n ↔ index < count) ∧
          ∃ ir, decode (data.take n) = .ok ir ∧
            (ir == start.addAll (runs.take count)) = true) ∧
      ((∀ count ≤ runs.length, n ≠ runEnd (start.addAll runs) count) →
        ∃ fault, decode (data.take n) = .error (.decode fault)) := by
  have hbyteOrder : byteOrder = byteOrderOf header := by
    rw [byteOrderOf, horder, Option.getD_some]
  have hsound := sound_addAll hcreate hheader hbyteOrder hruns
  have hwide : ∀ token ∈ tokens (start.addAll runs), WideValues token := fun token htoken =>
    wideValues_of_kept (htokens token (mem_tokens_addAll hcreate htoken)).kept
  have hlength : (start.addAll runs).messages.values.length = runs.length := by
    rw [values_addAll hcreate hascending, List.length_map]
  obtain ⟨hfit, rfl⟩ := encode_eq_ok.mp hdata
  have hreads : ∀ count ≤ runs.length, n = runEnd (start.addAll runs) count →
      ∃ ir, decode ((wire (start.addAll runs)).take n) = .ok ir ∧
        (ir == start.addAll (runs.take count)) = true := by
    rintro count - rfl
    rw [take_runEnd, leading_addAll hcreate hascending]
    exact decode_wire_same hcreate (ascending_take hascending count) hheader hbyteOrder
      (fun run hrun => hruns run (List.mem_of_mem_take hrun)) hnamespace hsemantic
      (fun token htoken => htokens token (mem_of_mem_take htoken))
      (fit_take hcreate hascending count hfit)
  have hcut := decode_cut hsound hfit hwide (List.take_append_drop n _).symm
  rw [hlength] at hcut
  have hrefuses : (∀ count ≤ runs.length, n ≠ runEnd (start.addAll runs) count) →
      ∃ fault, decode ((wire (start.addAll runs)).take n) = .error (.decode fault) := by
    intro hother
    rcases hcut with ⟨count, hcount, hfront⟩ | hfault
    · refine absurd ?_ (hother count hcount)
      rw [runEnd, ← hfront, List.length_take, Nat.min_eq_left hn]
    · exact hfault
  refine ⟨⟨?_, ?_⟩, ?_, hrefuses⟩
  · rintro ⟨ir, hir⟩
    by_cases hend : ∃ count ≤ runs.length, n = runEnd (start.addAll runs) count
    · exact hend
    · obtain ⟨fault, hfault⟩ := hrefuses fun count hcount heq => hend ⟨count, hcount, heq⟩
      rw [hir] at hfault
      cases hfault
  · rintro ⟨count, hcount, heq⟩
    obtain ⟨ir, hir, -⟩ := hreads count hcount heq
    exact ⟨ir, hir⟩
  · intro count hcount heq
    refine ⟨fun index hindex => ?_, hreads count hcount heq⟩
    rw [heq]
    exact runEnd_le_iff hsound (hlength ▸ hindex) (hlength ▸ hcount)

theorem decode_take_mixedRuns :
    ∃ start data, Ir.create "p" none 7 0 none .little Ir.plainHeader = .ok start ∧
      encode (start.addAll mixedRuns) = .ok data ∧
      (∃ ir, decode (data.take (runEnd (start.addAll mixedRuns) 1)) = .ok ir ∧
        (ir == start.addAll (mixedRuns.take 1)) = true) ∧
      ∃ fault, decode (data.take (runEnd (start.addAll mixedRuns) 1 + 1)) =
        .error (.decode fault) := by
  obtain ⟨start, hstart⟩ : ∃ start,
      Ir.create "p" none 7 0 none .little Ir.plainHeader = .ok start :=
    ⟨_, rfl⟩
  have hruns : ∀ run ∈ mixedRuns, MessageRun run.1 run.2 := by decide
  have hfit : Fit (allParts (start.addAll mixedRuns)) := by
    cases hstart
    decide +kernel
  have hdata := encode_of_fit hfit
  have hends : runEnd (start.addAll mixedRuns) 1 + 1 < (wire (start.addAll mixedRuns)).length ∧
      ∀ count ≤ 2, runEnd (start.addAll mixedRuns) 1 + 1 ≠
        runEnd (start.addAll mixedRuns) count := by
    cases hstart
    decide +kernel
  have htake := fun n => @decode_take _ _ _ _ _ _ _ _ _ hstart (by decide) (by decide) (by decide)
    hruns (by decide) (by decide) (by decide +kernel) _ hdata n
  refine ⟨start, _, hstart, hdata, ?_, ?_⟩
  · exact ((htake _ (by omega)).2.1 1 (by decide) rfl).2
  · exact (htake _ (by omega)).2.2 hends.2

end
end SimpleBinary.Record
