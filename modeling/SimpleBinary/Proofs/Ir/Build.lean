import SimpleBinary.Proofs.Table
import SimpleBinary.Proofs.Token.Closing
import SimpleBinary.Proofs.Token.Same

/-! How a compiled schema is built up from its runs, and what becomes of it
when each token is taken through a function. -/
namespace SimpleBinary

theorem bind_eq_ok {ε α β : Type} {first : Except ε α} {next : α → Except ε β} {result : β} :
    (first >>= next) = .ok result ↔ ∃ value, first = .ok value ∧ next value = .ok result := by
  cases first with
  | error error => exact ⟨nofun, nofun⟩
  | ok value =>
    constructor
    · intro h
      exact ⟨value, rfl, h⟩
    · rintro ⟨_, heq, h⟩
      cases heq
      exact h

theorem Table.map_beq_iff {κ : Type} [Ord κ] [BEq κ] [ReflBEq κ] (change : Token → Token)
    (table : Table κ (List Token)) :
    ((table.map (List.map change)).entries == table.entries) = true ↔
      ∀ entry ∈ table.entries, ∀ token ∈ entry.2, (change token == token) = true := by
  rw [Table.entries_map]
  induction table.entries with
  | nil => simp
  | cons entry rest ih =>
    rw [List.map_cons, List.cons_beq_cons, Bool.and_eq_true, ih, List.forall_mem_cons,
      ← Token.map_beq_iff]
    change (_ && _) = true ∧ _ ↔ _
    simp

namespace Ir

def addAll (ir : Ir) (runs : List (Int32 × List Token)) : Ir :=
  runs.foldl (fun ir run => ir.addMessage run.1 run.2) ir

def indexOf (header : List Token) (runs : List (List Token)) : Table String (List Token) :=
  runs.foldl captureTypes (captureTypes .empty header)

theorem addAll_eq (ir : Ir) (runs : List (Int32 × List Token)) :
    ir.addAll runs = { ir with
      messages := ir.messages.addAll runs
      types := (runs.map (·.2)).foldl captureTypes ir.types } := by
  induction runs generalizing ir with
  | nil => rfl
  | cons run rest ih => exact ih _

theorem create_eq_ok {packageName : String} {namespaceName : Option String} {id version : Int32}
    {semanticVersion : Option String} {byteOrder : ByteOrder} {headerTokens : List Token}
    {ir : Ir} :
    create packageName namespaceName id version semanticVersion byteOrder headerTokens = .ok ir ↔
      ∃ header, HeaderStructure.ofTokens headerTokens = .ok header ∧
        ir = { packageName, namespaceName, id, version, semanticVersion, byteOrder, header
               messages := .empty
               types := captureTypes .empty headerTokens } := by
  constructor
  · intro h
    obtain ⟨header, hheader, h⟩ := bind_eq_ok.mp h
    cases h
    exact ⟨header, hheader, rfl⟩
  · rintro ⟨header, hheader, rfl⟩
    exact bind_eq_ok.mpr ⟨header, hheader, rfl⟩

/-- A change of tokens that leaves alone all that a schema is built up from. -/
structure Keeps (change : Token → Token) : Prop where
  signal : ∀ token, (change token).signal = token.signal
  name : ∀ token, (change token).name = token.name
  id : ∀ token, (change token).id = token.id
  primitive : ∀ token, (change token).encoding.primitive = token.encoding.primitive
  byteOrder : ∀ token, (change token).encoding.byteOrder = token.encoding.byteOrder

variable {change : Token → Token}

theorem memberOf?_map (hkeeps : Keeps change) (tokens : List Token) (name : String) :
    HeaderStructure.memberOf? (tokens.map change) name =
      (HeaderStructure.memberOf? tokens name).map change := by
  unfold HeaderStructure.memberOf?
  rw [List.find?_map]
  congr 2
  funext token
  simp [hkeeps.signal, hkeeps.name]

theorem primitiveOf_map (hkeeps : Keeps change) (tokens : List Token) (name : String) :
    HeaderStructure.primitiveOf (tokens.map change) name =
      HeaderStructure.primitiveOf tokens name := by
  have hprimitive : ((HeaderStructure.memberOf? tokens name).map change).bind
      (·.encoding.primitive) =
        (HeaderStructure.memberOf? tokens name).bind (·.encoding.primitive) := by
    cases HeaderStructure.memberOf? tokens name with
    | none => rfl
    | some token => exact hkeeps.primitive token
  unfold HeaderStructure.primitiveOf
  rw [memberOf?_map hkeeps, hprimitive]

theorem ofTokens_eq_ok {tokens : List Token} {header : HeaderStructure} :
    HeaderStructure.ofTokens tokens = .ok header ↔ header.tokens = tokens ∧
      HeaderStructure.primitiveOf tokens "blockLength" = .ok header.blockLength ∧
      HeaderStructure.primitiveOf tokens "templateId" = .ok header.templateId ∧
      HeaderStructure.primitiveOf tokens "schemaId" = .ok header.schemaId ∧
      HeaderStructure.primitiveOf tokens "version" = .ok header.version := by
  constructor
  · intro h
    obtain ⟨blockLength, hblock, h⟩ := bind_eq_ok.mp h
    obtain ⟨templateId, htemplate, h⟩ := bind_eq_ok.mp h
    obtain ⟨schemaId, hschema, h⟩ := bind_eq_ok.mp h
    obtain ⟨version, hversion, h⟩ := bind_eq_ok.mp h
    cases h
    exact ⟨rfl, hblock, htemplate, hschema, hversion⟩
  · rintro ⟨rfl, hblock, htemplate, hschema, hversion⟩
    unfold HeaderStructure.ofTokens
    rw [hblock, htemplate, hschema, hversion]
    rfl

theorem ofTokens_map (hkeeps : Keeps change) {tokens : List Token} {header : HeaderStructure}
    (h : HeaderStructure.ofTokens tokens = .ok header) :
    HeaderStructure.ofTokens (tokens.map change) =
      .ok { header with tokens := tokens.map change } := by
  obtain ⟨-, hblock, htemplate, hschema, hversion⟩ := ofTokens_eq_ok.mp h
  refine ofTokens_eq_ok.mpr ⟨rfl, ?_, ?_, ?_, ?_⟩ <;> rw [primitiveOf_map hkeeps] <;> assumption

theorem captureTypes_map (hkeeps : Keeps change) (types : Table String (List Token))
    (tokens : List Token) :
    captureTypes (types.map (List.map change)) (tokens.map change) =
      (captureTypes types tokens).map (List.map change) := by
  induction tokens generalizing types with
  | nil => rfl
  | cons token rest ih =>
    have hend : Token.findEnd (change token :: rest.map change) 0 =
        Token.findEnd (token :: rest) 0 :=
      @Token.findEnd_map (token :: rest) change hkeeps.signal 0
    simp only [List.map_cons, captureTypes, hkeeps.signal, hkeeps.name, hend, ← ih]
    congr 1
    split
    · split
      · rw [Table.map_insert, ← List.map_cons, List.map_take]
      · rfl
    · rfl

theorem indexOf_map (hkeeps : Keeps change) (header : List Token) (runs : List (List Token)) :
    indexOf (header.map change) (runs.map (List.map change)) =
      (indexOf header runs).map (List.map change) := by
  have hrest : ∀ types, (runs.map (List.map change)).foldl captureTypes
      (Table.map (List.map change) types) =
        (runs.foldl captureTypes types).map (List.map change) := by
    induction runs with
    | nil => exact fun types => rfl
    | cons run rest ih =>
      intro types
      rw [List.map_cons, List.foldl_cons, captureTypes_map hkeeps, ih]
      rfl
  have hheader := captureTypes_map hkeeps .empty header
  rw [Table.map_empty] at hheader
  rw [indexOf, hheader, hrest]
  rfl

theorem mem_of_captureTypes {types : Table String (List Token)} {tokens : List Token}
    {entry : String × List Token} (h : entry ∈ (captureTypes types tokens).entries) :
    entry ∈ types.entries ∨ ∀ token ∈ entry.2, token ∈ tokens := by
  induction tokens generalizing types with
  | nil => exact .inl h
  | cons token rest ih =>
    unfold captureTypes at h
    rcases ih h with h | h
    · split at h
      · split at h
        · rcases Table.mem_insertEntry h with rfl | h
          · exact .inr fun _ hmem => List.mem_of_mem_take hmem
          · exact .inl h
        · exact .inl h
      · exact .inl h
    · exact .inr fun other hmem => List.mem_cons_of_mem _ (h other hmem)

theorem mem_of_indexOf {header : List Token} {runs : List (List Token)}
    {entry : String × List Token} (h : entry ∈ (indexOf header runs).entries) :
    ∀ token ∈ entry.2, token ∈ header ++ runs.flatten := by
  have hruns : ∀ types : Table String (List Token),
      entry ∈ (runs.foldl captureTypes types).entries →
        entry ∈ types.entries ∨ ∀ token ∈ entry.2, token ∈ runs.flatten := by
    clear h
    induction runs with
    | nil => exact fun types h => .inl h
    | cons run rest ih =>
      intro types h
      rcases ih _ h with h | h
      · rcases mem_of_captureTypes h with h | h
        · exact .inl h
        · exact .inr fun token hmem => List.mem_append_left _ (h token hmem)
      · exact .inr fun token hmem => List.mem_append_right _ (h token hmem)
  rcases hruns _ h with h | h
  · rcases mem_of_captureTypes h with h | h
    · cases h
    · exact fun token hmem => List.mem_append_left _ (h token hmem)
  · exact fun token hmem => List.mem_append_right _ (h token hmem)

/-- A header whose members follow one another. -/
def plainHeader : List Token :=
  let member (name : String) : Token :=
    { signal := .encoding, name, size := 2, encoding := { primitive := some .uint16 } }
  [{ signal := .beginComposite, name := "messageHeader" }, member "blockLength",
    member "templateId", member "schemaId", member "version",
    { signal := .endComposite, name := "messageHeader" }]

end Ir
end SimpleBinary
