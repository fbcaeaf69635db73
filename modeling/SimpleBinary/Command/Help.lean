import SimpleBinary.Command.Arguments

/-! The help texts of the command. -/
namespace SimpleBinary.Command

def lines (texts : List String) : String := String.join (texts.map (· ++ "\n"))

def Topic.helpText : Topic → String
  | .all => lines [
    "Compile SBE XML schemas to binary IR, or decode IR to JSON",
    "",
    "Usage: bsbe <COMMAND>",
    "",
    "Commands:",
    "  compile   Compile an SBE XML schema to a binary `.sbeir` file",
    "  decode    Decode a `.sbeir` file to JSON (printed to stdout)",
    "  validate  Parse and validate an SBE XML schema without writing anything",
    "  help      Print this message or the help of the given subcommand(s)",
    "",
    "Options:",
    "  -h, --help  Print help"]
  | .compile => lines [
    "Compile an SBE XML schema to a binary `.sbeir` file",
    "",
    "Usage: bsbe compile [OPTIONS] --input <INPUT>",
    "",
    "Options:",
    "  -i, --input <INPUT>          Input schema `.xml` file",
    "  -o, --output <OUTPUT>        Output `.sbeir` file (defaults to same name + `.sbeir`)",
    "      --namespace <NAMESPACE>  Namespace recorded in the IR (defaults to the package name)",
    "      --stop-on-error          Abort on the first schema error",
    "      --warnings-fatal         Treat schema warnings as errors",
    "      --suppress-output        Do not log errors and warnings as they are found",
    "  -h, --help                   Print help"]
  | .decode => lines [
    "Decode a `.sbeir` file to JSON (printed to stdout)",
    "",
    "Usage: bsbe decode --input <INPUT>",
    "",
    "Options:",
    "  -i, --input <INPUT>  Input `.sbeir` file",
    "  -h, --help           Print help"]
  | .validate => lines [
    "Parse and validate an SBE XML schema without writing anything",
    "",
    "Usage: bsbe validate [OPTIONS] --input <INPUT>",
    "",
    "Options:",
    "  -i, --input <INPUT>    Input schema `.xml` file",
    "      --stop-on-error    Abort on the first schema error",
    "      --warnings-fatal   Treat schema warnings as errors",
    "      --suppress-output  Do not log errors and warnings as they are found",
    "  -h, --help             Print help"]
  | .help => lines [
    "Print this message or the help of the given subcommand(s)",
    "",
    "Usage: bsbe help [COMMAND]...",
    "",
    "Arguments:",
    "  [COMMAND]...  Print help for the subcommand(s)"]

end SimpleBinary.Command
