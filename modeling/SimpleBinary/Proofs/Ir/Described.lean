import SimpleBinary.Proofs.Ir.Compiled

/-! What a compiled schema says of its own runs. Nothing is asked of the
schema: whatever its types and groups hold, at any depth, the header is one
composite and every message one bracket, with counts that lead from each begin
to its end. -/
namespace SimpleBinary

namespace Generate
open Token (SelfDescribing)

theorem selfDescribing_headerTokens (order : ByteOrder) (info : TypeInfo)
    (members : List DataType) :
    SelfDescribing .beginComposite .endComposite
      (Token.recount (typeTokens order 0 none (.composite info members))) := by
  rw [typeTokens]
  exact .of_mirrored rfl rfl (mirrored_memberTokens order members 0)

theorem selfDescribing_messageTokens (order : ByteOrder) (message : Message) :
    SelfDescribing .beginMessage .endMessage (messageTokens order message) := by
  rw [messageTokens_eq]
  exact .of_mirrored rfl rfl (mirrored_wrapped order message.fields _ _)

end Generate

namespace Schema
open Generate Token

/-- Whatever schema is compiled, its runs are nested and describe themselves. -/
theorem selfDescribing_of_compile {schema : Schema} {namespaceName : Option String} {ir : Ir}
    (h : schema.compile namespaceName = .ok ir) :
    SelfDescribing .beginComposite .endComposite ir.header.tokens ∧
      ∀ run ∈ ir.messages.values, SelfDescribing .beginMessage .endMessage run := by
  obtain ⟨info, members, start, -, hcreate, rfl⟩ := compile_eq_ok h
  constructor
  · rw [(Record.header_addAll schema.runs hcreate).2]
    exact selfDescribing_headerTokens schema.byteOrder info members
  · intro run hrun
    obtain ⟨entry, hentry, rfl⟩ := List.mem_map.mp hrun
    obtain ⟨message, -, rfl⟩ := List.mem_map.mp (Record.mem_entries_addAll hcreate hentry)
    exact selfDescribing_messageTokens schema.byteOrder message.2

/-- A schema put together by hand: groups inside a group, composites inside a
composite, and links around a group and inside it. -/
def deepSchema : Schema :=
  let number (name : String) : DataType := .encoded { name } { primitive := .uint16 }
  let dimension : DataType :=
    .composite { name := "dimension" } [number "blockLength", number "numInGroup"]
  let side : DataType :=
    .enum { name := "Side" }
      { encoding := .char, values := [{ name := "Buy", value := .long 66 1 }] }
  let flags : DataType :=
    .set { name := "Flags" }
      { encoding := .uint8, choices := [{ name := "Live", value := .long 0 1 }] }
  let pair : DataType :=
    .composite { name := "pair" } [number "first", .composite { name := "rest" } [side, flags]]
  let text : DataType := .composite { name := "text" } [number "length", number "varData"]
  let inner : Field := .group { name := "inner", id := 3 } dimension 0
    [.plain { name := "p", id := 4, dataField := some 1 } pair,
      .data { name := "d", id := 5, lengthField := some 0 } text]
  let outer : Field := .group { name := "outer", id := 2, entryCountField := some 0 } dimension 0
    [inner, inner]
  { packageName := "p", id := 7
    types := Table.empty.insert "messageHeader" (.composite { name := "messageHeader" }
      [number "blockLength", number "templateId", number "schemaId", number "version"])
    messages := Table.empty.insert 1
      { id := 1, name := "M", fields :=
        [.plain { name := "n", id := 6, groupField := some 1 } (number "count"), outer] } }

def linkedEnds (run : List Token) : List (Signal × Int) :=
  (run.filter (·.refId ≠ invalidId)).map fun token => (token.signal, token.refId.toInt)

theorem selfDescribing_deepSchema :
    ∃ ir, deepSchema.compile none = .ok ir ∧
      ir.messages.values.map linkedEnds =
        [[(.beginField, 4), (.endField, 4), (.beginGroup, 1), (.beginField, 27), (.endField, 27),
          (.beginVarData, 14), (.endVarData, 14), (.beginField, 52), (.endField, 52),
          (.beginVarData, 39), (.endVarData, 39), (.endGroup, 1)]] ∧
      SelfDescribing .beginComposite .endComposite ir.header.tokens ∧
      ∀ run ∈ ir.messages.values, SelfDescribing .beginMessage .endMessage run := by
  obtain ⟨ir, hir⟩ : ∃ ir, deepSchema.compile none = .ok ir := ⟨_, rfl⟩
  refine ⟨ir, hir, ?_, selfDescribing_of_compile hir⟩
  cases hir
  decide +kernel

end Schema
end SimpleBinary
