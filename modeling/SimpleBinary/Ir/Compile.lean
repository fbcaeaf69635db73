import SimpleBinary.Ir.Generate
import SimpleBinary.Ir.Record
import SimpleBinary.Schema.Reader

/-! From a schema document to its compiled form and binary record. -/
namespace SimpleBinary.Ir

def ofDocument (document : String) (policy : Policy) (namespaceName : Option String) :
    Except Error (Ir × List UInt8) := do
  let schema ← Schema.parse document policy
  let ir ← schema.compile namespaceName
  return (ir, ← Record.encode ir)

end SimpleBinary.Ir
