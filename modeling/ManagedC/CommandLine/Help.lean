/-!
# Help texts

What the program says about itself when it is asked. The help of `compile` has a long form, which
explains the values of an option; the other texts have one form.
-/

namespace ManagedC.CommandLine

/-- Lines put together, each with its line break. -/
def block (lines : List String) : String := String.join (lines.map (· ++ "\n"))

/-- Name and version. -/
def versionText : String := block ["mcc 0.1.0"]

/-- The help on the program. -/
def programHelp : String := block [
  "Managed C Compiler",
  "",
  "Usage: mcc [OPTIONS] <COMMAND>",
  "",
  "Commands:",
  "  compile  Compile a JSON translation unit into a module",
  "  run      Compile a JSON translation unit and run its entry point",
  "  help     Print this message or the help of the given subcommand(s)",
  "",
  "Options:",
  "  -v, --verbose  Log compilation steps",
  "  -h, --help     Print help",
  "  -V, --version  Print version"]

/-- The short help on `compile`. -/
def compileHelp : String := block [
  "Compile a JSON translation unit into a module",
  "",
  "Usage: mcc compile [OPTIONS] <INPUT>",
  "",
  "Arguments:",
  "  <INPUT>  Input translation unit (JSON)",
  "",
  "Options:",
  "  -o, --output <OUTPUT>  Output file (defaults to stdout)",
  "  -v, --verbose          Log compilation steps",
  "      --emit <EMIT>      Output format [default: il] [possible values: il, json]",
  "      --keep-going       Report every failing function instead of stopping at the first",
  "  -h, --help             Print help (see more with '--help')"]

/-- The long help on `compile`. -/
def compileLongHelp : String := block [
  "Compile a JSON translation unit into a module",
  "",
  "Usage: mcc compile [OPTIONS] <INPUT>",
  "",
  "Arguments:",
  "  <INPUT>",
  "          Input translation unit (JSON)",
  "",
  "Options:",
  "  -o, --output <OUTPUT>",
  "          Output file (defaults to stdout)",
  "",
  "  -v, --verbose",
  "          Log compilation steps",
  "",
  "      --emit <EMIT>",
  "          Output format",
  "          ",
  "          [default: il]",
  "",
  "          Possible values:",
  "          - il:   ilasm-like text",
  "          - json: Serialized module",
  "",
  "      --keep-going",
  "          Report every failing function instead of stopping at the first",
  "",
  "  -h, --help",
  "          Print help (see a summary with '-h')"]

/-- The help on `run`. -/
def runHelp : String := block [
  "Compile a JSON translation unit and run its entry point",
  "",
  "Usage: mcc run [OPTIONS] <INPUT> [-- <ARGS>...]",
  "",
  "Arguments:",
  "  <INPUT>    Input translation unit (JSON)",
  "  [ARGS]...  Arguments passed to the program",
  "",
  "Options:",
  "      --step-limit <STEP_LIMIT>  Abort after this many executed instructions [default: 10000000]",
  "  -v, --verbose                  Log compilation steps",
  "  -h, --help                     Print help"]

/-- The help on `help`. -/
def helpHelp : String := block [
  "Print this message or the help of the given subcommand(s)",
  "",
  "Usage: mcc help [COMMAND]...",
  "",
  "Arguments:",
  "  [COMMAND]...  Print help for the subcommand(s)"]

end ManagedC.CommandLine
