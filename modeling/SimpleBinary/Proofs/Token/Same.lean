import SimpleBinary.Ir
import SimpleBinary.Proofs.Table

/-! What `==` compares. On values it leaves out the width and the character
encoding, and so it does on tokens, runs and compiled schemas. -/
namespace SimpleBinary

namespace Value

@[simp] theorem beq_eq_same (a b : Value) : (a == b) = a.same b := rfl

@[simp] theorem same_self (value : Value) : value.same value = true := by
  cases value <;> simp [same]

instance : ReflBEq Value := ⟨fun {value} => same_self value⟩

/-- All that is compared of a value. -/
def content : Value → Value
  | .long value _ => .long value 0
  | .double value _ => .double value 0
  | .bytes value _ => .bytes value ""

theorem beq_iff_content (a b : Value) : (a == b) = true ↔ a.content = b.content := by
  cases a <;> cases b <;> simp [same, content]

end Value

theorem Encoding.beq_iff (a b : Encoding) :
    (a == b) = true ↔ a.presence = b.presence ∧ a.primitive = b.primitive ∧
      a.byteOrder = b.byteOrder ∧ (a.minValue == b.minValue) = true ∧
      (a.maxValue == b.maxValue) = true ∧ (a.nullValue == b.nullValue) = true ∧
      (a.constValue == b.constValue) = true ∧ a.characterEncoding = b.characterEncoding ∧
      a.epoch = b.epoch ∧ a.timeUnit = b.timeUnit ∧ a.semanticType = b.semanticType := by
  change instBEqEncoding.beq a b = true ↔ _
  simp only [instBEqEncoding.beq, Bool.and_eq_true, beq_iff_eq]

theorem Token.beq_iff (a b : Token) :
    (a == b) = true ↔ a.signal = b.signal ∧ a.name = b.name ∧ a.description = b.description ∧
      a.id = b.id ∧ a.refId = b.refId ∧ a.version = b.version ∧ a.deprecated = b.deprecated ∧
      a.offset = b.offset ∧ a.size = b.size ∧ a.count = b.count ∧
      (a.encoding == b.encoding) = true := by
  change instBEqToken.beq a b = true ↔ _
  simp only [instBEqToken.beq, Bool.and_eq_true, beq_iff_eq]

def Encoding.content (encoding : Encoding) : Encoding :=
  { encoding with
    minValue := encoding.minValue.map Value.content
    maxValue := encoding.maxValue.map Value.content
    nullValue := encoding.nullValue.map Value.content
    constValue := encoding.constValue.map Value.content }

theorem Encoding.beq_iff_content (a b : Encoding) : (a == b) = true ↔ a.content = b.content := by
  simp only [beq_iff, option_beq_iff Value.beq_iff_content, content, Encoding.mk.injEq]

def Token.content (token : Token) : Token := { token with encoding := token.encoding.content }

theorem Token.beq_iff_content (a b : Token) : (a == b) = true ↔ a.content = b.content := by
  simp only [beq_iff, Encoding.beq_iff_content, content, Token.mk.injEq]

instance : ReflBEq Encoding :=
  ⟨fun {encoding} => by simp [Encoding.beq_iff]⟩

instance : ReflBEq Token :=
  ⟨fun {token} => by simp [Token.beq_iff]⟩

theorem HeaderStructure.beq_iff (a b : HeaderStructure) :
    (a == b) = true ↔ (a.tokens == b.tokens) = true ∧ a.blockLength = b.blockLength ∧
      a.templateId = b.templateId ∧ a.schemaId = b.schemaId ∧ a.version = b.version := by
  change instBEqHeaderStructure.beq a b = true ↔ _
  simp only [instBEqHeaderStructure.beq, Bool.and_eq_true, beq_iff_eq]

theorem Ir.beq_iff (a b : Ir) :
    (a == b) = true ↔ a.packageName = b.packageName ∧ a.namespaceName = b.namespaceName ∧
      a.id = b.id ∧ a.version = b.version ∧ a.semanticVersion = b.semanticVersion ∧
      a.byteOrder = b.byteOrder ∧ (a.header == b.header) = true ∧
      (a.messages.entries == b.messages.entries) = true ∧
      (a.types.entries == b.types.entries) = true := by
  change instBEqIr.beq a b = true ↔ _
  simp only [instBEqIr.beq, Bool.and_eq_true, beq_iff_eq]
  rfl

theorem Token.map_beq_iff (change : Token → Token) (run : List Token) :
    (run.map change == run) = true ↔ ∀ token ∈ run, (change token == token) = true := by
  induction run with
  | nil => simp
  | cons token rest ih => simp [ih]

end SimpleBinary
