import SimpleBinary.Ir.Fault
import SimpleBinary.Schema.Finding
import SimpleBinary.Walk.Fault
import SimpleBinary.Xml.Fault

/-! Every way in which an operation can fail. -/
namespace SimpleBinary

inductive Error where
  | file (path : String)
  | xml (fault : Xml.Fault)
  | schema (finding : Finding)
  /-- The schema was read to the end, or to a check, with these diagnostics. -/
  | invalid (diagnostics : List Diagnostic)
  /-- A length or an offset does not fit in a word of 32 bits. -/
  | tooLarge
  | endlessReferences
  | header (fault : HeaderFault)
  | recordVersion (version : Int32)
  | decode (fault : DecodeFault)
  | encode (part : RecordPart)
  | walk (fault : WalkFault)
  deriving DecidableEq

def Diagnostic.count (severity : Severity) (diagnostics : List Diagnostic) : Nat :=
  diagnostics.countP fun diagnostic => diagnostic.severity = severity

def Error.message : Error → String
  | .file path => s!"I/O error: {path}"
  | .xml fault => s!"XML error: {fault.message}"
  | .schema finding => s!"Schema error: {finding.message}"
  | .invalid diagnostics =>
    let errors := Diagnostic.count .error diagnostics
    let warnings := Diagnostic.count .warning diagnostics
    s!"Schema invalid: {errors} error(s), {warnings} warning(s)"
  | .tooLarge => "Schema error: a length or an offset does not fit in 32 bits"
  | .endlessReferences => "Schema error: references lead from type to type without end"
  | .header fault => s!"Invalid message header: {fault.message}"
  | .recordVersion version => s!"Unsupported IR version {version.toInt}"
  | .decode fault => s!"IR decode error: {fault.message}"
  | .encode part => s!"IR encode error: Failed to write {part.label}: ()"
  | .walk fault => s!"Decode error: {fault.message}"

end SimpleBinary
