import SimpleBinary.Schema.Log

/-! The arguments of the command. They are read from left to right; the first
that asks for help or cannot be used decides. -/
namespace SimpleBinary.Command

inductive Topic where
  | all | compile | decode | validate | help
  deriving DecidableEq

inductive Request where
  | compile (input : String) (output namespaceName : Option String) (policy : Policy)
  | decode (input : String)
  | validate (input : String) (policy : Policy)
  | help (topic : Topic)
  deriving DecidableEq

inductive Key where
  | input | output | namespaceName
  deriving DecidableEq

inductive Flag where
  | stopOnError | warningsFatal | suppressOutput
  deriving DecidableEq

structure Given where
  input : Option String := none
  output : Option String := none
  namespaceName : Option String := none
  policy : Policy := {}

inductive Meaning where
  | key (key : Key)
  | flag (flag : Flag)
  | help

def Topic.long (topic : Topic) (name : String) : Option Meaning :=
  match topic, name with
  | _, "help" => some .help
  | _, "input" => some (.key .input)
  | .compile, "output" => some (.key .output)
  | .compile, "namespace" => some (.key .namespaceName)
  | .decode, _ => none
  | _, "stop-on-error" => some (.flag .stopOnError)
  | _, "warnings-fatal" => some (.flag .warningsFatal)
  | _, "suppress-output" => some (.flag .suppressOutput)
  | _, _ => none

def Topic.short (topic : Topic) (letter : Char) : Option Meaning :=
  match topic, letter with
  | _, 'h' => some .help
  | _, 'i' => some (.key .input)
  | .compile, 'o' => some (.key .output)
  | _, _ => none

/-- Each option is given once at most, and a path is never empty. -/
def Given.set (given : Given) (key : Key) (value : String) : Option Given :=
  match key with
  | .input =>
    if given.input.isSome ∨ value.isEmpty then none else some { given with input := value }
  | .output =>
    if given.output.isSome ∨ value.isEmpty then none else some { given with output := value }
  | .namespaceName =>
    if given.namespaceName.isSome then none else some { given with namespaceName := value }

def Given.raise (given : Given) (flag : Flag) : Option Given :=
  let policy := given.policy
  match flag with
  | .stopOnError =>
    if policy.stopOnError then none
    else some { given with policy := { policy with stopOnError := true } }
  | .warningsFatal =>
    if policy.warningsFatal then none
    else some { given with policy := { policy with warningsFatal := true } }
  | .suppressOutput =>
    if policy.suppressOutput then none
    else some { given with policy := { policy with suppressOutput := true } }

structure Occurrence where
  meaning : Meaning
  attached : Option String

/-- A long option may have a value behind an equals sign; a short one has it
right behind the letter, with an equals sign or without. -/
def Topic.option? (topic : Topic) (argument : String) : Option Occurrence :=
  match argument.toList with
  | '-' :: '-' :: chars =>
    let name := String.ofList (chars.takeWhile (· ≠ '='))
    let attached := match chars.dropWhile (· ≠ '=') with
      | [] => none
      | _ :: value => some (String.ofList value)
    (topic.long name).map fun meaning => { meaning, attached }
  | '-' :: letter :: chars =>
    let attached := match chars with
      | [] => none
      | '=' :: value => some (String.ofList value)
      | value => some (String.ofList value)
    (topic.short letter).map fun meaning => { meaning, attached }
  | _ => none

/-- A value that stands alone does not look like an option; a single hyphen
does not. -/
def isValue (argument : String) : Bool := argument = "-" || !argument.startsWith "-"

inductive Outcome where
  | given (given : Given)
  | help
  | misuse

/-- The arguments behind the name of a command, where `pending` waits for its
value. A double hyphen ends the options, and nothing may follow. -/
def Topic.read (topic : Topic) (given : Given) (pending : Option Key) : List String → Outcome
  | [] => if pending.isSome then .misuse else .given given
  | argument :: rest =>
    match pending with
    | some key =>
      match if isValue argument then given.set key argument else none with
      | none => .misuse
      | some given => topic.read given none rest
    | none =>
      if argument = "--" then if rest.isEmpty then .given given else .misuse
      else match topic.option? argument with
        | none => .misuse
        | some { meaning := .help, attached } =>
          -- Letters behind a short help are not looked at any more.
          if attached.isSome ∧ argument.startsWith "--" then .misuse else .help
        | some { meaning := .flag flag, attached } =>
          match if attached.isSome then none else given.raise flag with
          | none => .misuse
          | some given => topic.read given none rest
        | some { meaning := .key key, attached := none } => topic.read given (some key) rest
        | some { meaning := .key key, attached := some value } =>
          match given.set key value with
          | none => .misuse
          | some given => topic.read given none rest

def Topic.request (topic : Topic) (arguments : List String) : Option Request :=
  match topic.read {} none arguments with
  | .misuse => none
  | .help => some (.help topic)
  | .given given => do
    let input ← given.input
    match topic with
    | .compile => some (.compile input given.output given.namespaceName given.policy)
    | .decode => some (.decode input)
    | .validate => some (.validate input given.policy)
    | _ => none

def Topic.ofName? : String → Option Topic
  | "compile" => some .compile
  | "decode" => some .decode
  | "validate" => some .validate
  | "help" => some .help
  | _ => none

def request? : List String → Option Request
  | "compile" :: rest => Topic.compile.request rest
  | "decode" :: rest => Topic.decode.request rest
  | "validate" :: rest => Topic.validate.request rest
  | ["help"] => some (.help .all)
  | ["help", name] => (Topic.ofName? name).map .help
  | "--help" :: _ => some (.help .all)
  | argument :: _ => if argument.startsWith "-h" then some (.help .all) else none
  | [] => none

end SimpleBinary.Command
