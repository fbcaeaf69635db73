import SimpleBinary.Ir.Record
import SimpleBinary.Table

/-! Files as the command sees them, and a directory held in memory. -/
namespace SimpleBinary.Command

structure FileAccess (m : Type → Type) where
  read : String → m (Option (List UInt8))
  write : String → List UInt8 → m Bool

variable {m : Type → Type} [Monad m] (files : FileAccess m)

def FileAccess.load (path : String) : ExceptT Error m (List UInt8) := do
  match ← (files.read path : m (Option (List UInt8))) with
  | some data => return data
  | none => throw (.file path)

/-- A file whose bytes are not UTF-8 cannot be read as text. -/
def FileAccess.loadText (path : String) : ExceptT Error m String := do
  match Text.ofUtf8? (← files.load path) with
  | some text => return text
  | none => throw (.file path)

def FileAccess.save (path : String) (data : List UInt8) : ExceptT Error m Unit := do
  if !(← (files.write path data : m Bool)) then throw (.file path)

def FileAccess.saveIr (path : String) (ir : Ir) : ExceptT Error m Unit := do
  match Record.encode ir with
  | .ok data => files.save path data
  | .error error => throw error

def FileAccess.loadIr (path : String) : ExceptT Error m Ir := do
  match Record.decode (← files.load path) with
  | .ok ir => return ir
  | .error error => throw error

abbrev Directory := Table String (List UInt8)

namespace Directory

def join (steps : List String) : String := "/".intercalate steps

def isFolder (directory : Directory) (steps : List String) : Bool :=
  steps.isEmpty || directory.keys.any fun name => name.startsWith (join steps ++ "/")

/-- One step from a folder to another that is there. No step leads out of the
directory. -/
def enter (directory : Directory) (folder : List String) (step : String) :
    Option (List String) :=
  if step = "" ∨ step = "." then some folder
  else if step = ".." then if folder.isEmpty then none else some folder.dropLast
  else if directory.isFolder (folder ++ [step]) then some (folder ++ [step])
  else none

/-- What a file can be called: no more than 255 bytes, and no zero. -/
def isName (step : String) : Bool :=
  step ≠ "" && step ≠ "." && step ≠ ".." && step.utf8ByteSize ≤ 255 &&
    !step.toList.contains '\x00'

/-- The place of a file: all steps but the last lead through folders, and the
last is a name. A path has less than 4096 bytes. -/
def place? (directory : Directory) (path : String) : Option (List String) := do
  let steps := path.splitOn "/"
  let name ← steps.getLast?
  if path.startsWith "/" ∨ 4096 ≤ path.utf8ByteSize ∨ !isName name then none
  else
    let folder ← steps.dropLast.foldlM directory.enter []
    return folder ++ [name]

def read (directory : Directory) (path : String) : Option (List UInt8) := do
  directory.get? (join (← directory.place? path))

/-- A folder is never overwritten by a file. -/
def write (directory : Directory) (path : String) (data : List UInt8) : Option Directory := do
  let place ← directory.place? path
  if directory.isFolder place then none else some (directory.insert (join place) data)

def access : FileAccess (StateM Directory) where
  read path := return (← get).read path
  write path data := do
    match (← get).write path data with
    | some directory =>
      set directory
      return true
    | none => return false

end Directory
end SimpleBinary.Command
