import SimpleBinary.Schema.Reader

/-! Documents by their characters. A document is read through its characters
only, and those of a literal are known without its bytes: what a literal
document comes to is computed from them. -/
namespace SimpleBinary

/-- A text with its characters, which are known without its bytes. -/
structure Text.Literal where
  text : String
  chars : List Char
  toList_text : text.toList = chars

section
variable {document : String} {chars : List Char} (h : document.toList = chars)
include h

theorem Xml.Element.ofDocument_eq : ofDocument document = ofChars chars := by
  rw [ofDocument, h]

theorem Schema.readLogged_eq (policy : Policy) :
    readLogged document policy = (ofXml (Xml.Element.ofChars chars)).run { policy } := by
  rw [readLogged, read, Xml.Element.ofDocument_eq h]

theorem Schema.parse_eq (policy : Policy) :
    parse document policy = ((ofXml (Xml.Element.ofChars chars)).run { policy }).1 := by
  rw [parse, readLogged_eq h]

end

namespace Schema

theorem exists_ofRoot_of_readLogged {document : String} {policy : Policy} {schema : Schema}
    {log : Log} (h : readLogged document policy = (.ok schema, log)) :
    ∃ root, (ofRoot root).run { policy } = (.ok schema, log) := by
  unfold readLogged read ofXml at h
  split at h
  · cases h
  · split at h
    · exact ⟨_, h⟩
    · cases h

set_option maxRecDepth 2000 in
def plainHeader : Text.Literal := ⟨"<composite name='messageHeader'>
    <type name='blockLength' primitiveType='uint16'/>
    <type name='templateId' primitiveType='uint16'/>
    <type name='schemaId' primitiveType='uint16'/><type name='version' primitiveType='uint16'/>
    </composite>", _, String.toList_ofList⟩

/-- A document by what stands before and behind its message header. -/
def withHeader (front behind : String) : String := front ++ (plainHeader.text ++ behind)

theorem toList_withHeader {front behind : String} {before after : List Char}
    (hfront : front.toList = before) (hbehind : behind.toList = after) :
    (withHeader front behind).toList = before ++ (plainHeader.chars ++ after) := by
  rw [withHeader, String.toList_append, String.toList_append, plainHeader.toList_text, hfront,
    hbehind]

theorem parse_withHeader {front behind : String} {before after : List Char}
    (hfront : front.toList = before) (hbehind : behind.toList = after) (policy : Policy) :
    parse (withHeader front behind) policy =
      ((ofXml (Xml.Element.ofChars (before ++ (plainHeader.chars ++ after)))).run { policy }).1 :=
  parse_eq (toList_withHeader hfront hbehind) policy

theorem eq_ok_of_toOption {α ε : Type} {result : Except ε α} {value : α}
    (h : result.toOption = some value) : result = .ok value := by
  cases result with
  | error error => cases h
  | ok other => rw [Option.some.inj h]

theorem exists_of_toOption {α β ε : Type} {result : Except ε α} {view : α → β} {value : β}
    (h : result.toOption.map view = some value) :
    ∃ given, result = .ok given ∧ view given = value := by
  obtain ⟨given, hgiven, hview⟩ := Option.map_eq_some_iff.mp h
  exact ⟨given, eq_ok_of_toOption hgiven, hview⟩

theorem exists_of_parse {α : Type} {document : String} {view : Schema → α} {value : α}
    (h : (parse document {}).toOption.map view = some value) :
    ∃ schema, parse document {} = .ok schema ∧ view schema = value :=
  exists_of_toOption h

end Schema
end SimpleBinary
