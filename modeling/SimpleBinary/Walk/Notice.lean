import SimpleBinary.Error
import SimpleBinary.Token

/-! What a walk over a message tells its listener. -/
namespace SimpleBinary.Walk

/-- An index is a place in the buffer. A run is the component of the token
that opens it. -/
inductive Notice where
  | beginMessage (token : Token)
  | endMessage (token : Token)
  /-- A member of a composite is its own field. -/
  | encoding (field : Token) (index : Nat) (type : Token)
  | enum (field : Token) (index : Nat) (run : List Token)
  | set (field : Token) (index : Nat) (run : List Token)
  | beginComposite (field : Token) (run : List Token)
  | endComposite (field : Token) (run : List Token)
  | groupHeader (group : Token) (entries : Nat)
  | beginGroup (group : Token) (entry entries : Nat)
  | endGroup (group : Token) (entry entries : Nat)
  | varData (field : Token) (index length : Nat) (type : Token)

/-- A walk keeps the state of its listener, also when it fails. -/
abbrev Walking (σ : Type) := ExceptT Error (StateM σ)

abbrev Listener (σ : Type) := Notice → Walking σ Unit

def certain {σ α : Type} : Except WalkFault α → Walking σ α
  | .ok value => pure value
  | .error fault => throw (.walk fault)

end SimpleBinary.Walk
