import SimpleBinary.Command.Files
import SimpleBinary.Command.Help
import SimpleBinary.Ir.Compile
import SimpleBinary.Ir.Json

/-! The command: what it writes, prints and reports. -/
namespace SimpleBinary.Command

structure Report where
  /-- Zero, one for a failure, two for misuse. -/
  code : UInt8
  output : String := ""
  notes : List String := []

/-- The name of a file without its extension; a dot in front starts none. -/
def stem (name : List Char) : List Char :=
  let reversed := name.reverse
  match reversed.dropWhile (· ≠ '.') with
  | [] => name
  | _ :: before => if before.isEmpty then name else before.reverse

/-- The path with the extension of its last step replaced, or added if it has
none. A last step of two dots names no file and stays. -/
def withExtension (path extension : String) : String :=
  let chars := (path.toList.reverse.dropWhile (· = '/')).reverse
  let name := (chars.reverse.takeWhile (· ≠ '/')).reverse
  let folder := chars.take (chars.length - name.length)
  if name.isEmpty ∨ name = "..".toList then path
  else String.ofList (folder ++ stem name ++ '.' :: extension.toList)

variable {m : Type → Type} [Monad m] (files : FileAccess m)

def readSchema (input : String) (policy : Policy) :
    ExceptT Error (StateT (List String) m) Schema := do
  let document ← (files.loadText input).run
  match document with
  | .error error => throw error
  | .ok text =>
    let (outcome, log) := Schema.readLogged text policy
    if !policy.suppressOutput then modify (· ++ log.messages)
    match outcome with
    | .ok schema => return schema
    | .error error => throw error

def perform : Request → ExceptT Error (StateT (List String) m) String
  | .help topic => return topic.helpText
  | .compile input output namespaceName policy => do
    let schema ← readSchema files input policy
    let ir ← match schema.compile namespaceName with
      | .ok ir => pure ir
      | .error error => throw error
    let target := output.getD (withExtension input "sbeir")
    match ← (files.saveIr target ir).run with
    | .ok () => return s!"Compiled {input} → {target}\n"
    | .error error => throw error
  | .decode input => do
    match ← (files.load input).run with
    | .error error => throw error
    | .ok data =>
      match Record.toJson data with
      | .ok json => return json ++ "\n"
      | .error error => throw error
  | .validate input policy => do
    let schema ← readSchema files input policy
    let messages := schema.messages.size
    let types := schema.declaredTypeCount
    let package := schema.packageName
    return s!"{input} is valid: package {package}, {messages} message(s), {types} type(s)\n"

def run (arguments : List String) : m Report := do
  match request? arguments with
  | none => return { code := 2, notes := [Topic.all.helpText] }
  | some request =>
    let (outcome, notes) ← ((perform files request).run).run []
    match outcome with
    | .ok output => return { code := 0, output, notes }
    | .error error => return { code := 1, notes := notes ++ ["Error: " ++ error.message] }

end SimpleBinary.Command
