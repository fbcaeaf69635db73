import SimpleBinary.Command.Run

/-! The command line. -/
namespace SimpleBinary.Command

def diskAccess : FileAccess IO where
  read path := do
    try
      return some (← IO.FS.readBinFile path).toList
    catch _ => return none
  write path data := do
    try
      IO.FS.writeBinFile path (ByteArray.mk data.toArray)
      return true
    catch _ => return false

end SimpleBinary.Command

open SimpleBinary.Command in
def main (arguments : List String) : IO UInt32 := do
  let report ← run diskAccess arguments
  for note in report.notes do
    IO.eprintln note
  IO.print report.output
  return report.code.toUInt32
