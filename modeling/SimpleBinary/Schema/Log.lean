import SimpleBinary.Error

/-! The log of a schema check. A policy says which diagnostics end the check
at once and which make it fail at the next checkpoint. -/
namespace SimpleBinary

structure Policy where
  /-- End at the first error, and at the first warning if those are fatal. -/
  stopOnError : Bool := false
  /-- Let warnings fail a checkpoint. -/
  warningsFatal : Bool := false
  /-- Keep diagnostics from being printed as they are found. -/
  suppressOutput : Bool := false
  deriving DecidableEq

structure Log where
  policy : Policy := {}
  diagnostics : List Diagnostic := []

namespace Log

def errorCount (log : Log) : Nat := Diagnostic.count .error log.diagnostics

def warningCount (log : Log) : Nat := Diagnostic.count .warning log.diagnostics

def messages (log : Log) : List String := log.diagnostics.map Diagnostic.message

def isFatal (policy : Policy) : Severity → Bool
  | .error => true
  | .warning => policy.warningsFatal

end Log

/-- A check that writes to the log, and keeps what it wrote when it fails. -/
abbrev Check (α : Type) := ExceptT Error (StateM Log) α

namespace Check

def report (severity : Severity) (finding : Finding) : Check Unit := do
  modify fun log => { log with diagnostics := log.diagnostics ++ [⟨severity, finding⟩] }
  let policy := (← get).policy
  if policy.stopOnError && Log.isFatal policy severity then throw (.schema finding)

def error (finding : Finding) : Check Unit := report .error finding

def warning (finding : Finding) : Check Unit := report .warning finding

def checkpoint : Check Unit := do
  let log ← get
  if log.diagnostics.any fun diagnostic => Log.isFatal log.policy diagnostic.severity then
    throw (.invalid log.diagnostics)

/-- Lengths and offsets are words of 32 bits. -/
def fits (n : Int) : Bool := -2147483648 ≤ n && n ≤ 2147483647

end Check
end SimpleBinary
