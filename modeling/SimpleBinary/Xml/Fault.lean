import SimpleBinary.Text.Escaped

/-! Why a text is no XML document. -/
namespace SimpleBinary.Xml

inductive Fault where
  | unexpectedEnd
  | expected (what : String)
  | forbiddenChar (c : Char)
  | invalidName
  | declarationInside
  | documentType
  | comment
  | cdataEndInText
  | reference
  | unknownReference (name : String)
  | unknownQualifier (qualifier : String)
  | reservedNamespace
  | duplicateNamespace (qualifier : String)
  | duplicateAttribute (name : String)
  | unmatchedClose (name : String)
  | contentOutside
  | noRoot
  | unclosed
  deriving DecidableEq

def Fault.message : Fault → String
  | .unexpectedEnd => "unexpected end of the document"
  | .expected what => s!"expected {what}"
  | .forbiddenChar c => s!"character {Text.escape (String.singleton c)} is not allowed"
  | .invalidName => "invalid name"
  | .declarationInside => "the declaration must stand at the start"
  | .documentType => "a document type declaration is not allowed"
  | .comment => "a comment must not hold or end in a double hyphen"
  | .cdataEndInText => "text must not hold the end of a CDATA section"
  | .reference => "malformed reference"
  | .unknownReference name => s!"unknown entity {Text.quote name}"
  | .unknownQualifier qualifier => s!"unknown namespace prefix {Text.quote qualifier}"
  | .reservedNamespace => "reserved namespace"
  | .duplicateNamespace qualifier => s!"namespace prefix {Text.quote qualifier} is declared twice"
  | .duplicateAttribute name => s!"attribute {Text.quote name} is given twice"
  | .unmatchedClose name => s!"unexpected closing tag {Text.quote name}"
  | .contentOutside => "content outside of the root element"
  | .noRoot => "the document has no root element"
  | .unclosed => "the root element is not closed"

end SimpleBinary.Xml
