import ManagedC.CommandLine.Help
import ManagedC.CommandLine.Options
import ManagedC.Text

/-!
# What a command line asks for

The program has the commands `compile`, `run` and `help`. A command line that asks for none of them
in the right way is a mistake.
-/

namespace ManagedC.CommandLine

/-- The form in which a compiled program is written. -/
inductive Format where
  /-- Assembler text. -/
  | assembler
  /-- A JSON document. -/
  | json
  deriving DecidableEq, Inhabited

/-- A compilation. -/
structure CompileRequest where
  /-- The file to compile. -/
  input : String
  /-- The file to write; none for the standard output. -/
  output : Option String
  /-- The form to write. -/
  format : Format
  /-- Whether the functions after a bad one are compiled too. -/
  keepGoing : Bool
  deriving DecidableEq, Inhabited

/-- A compilation followed by a run. -/
structure RunRequest where
  /-- The file to compile. -/
  input : String
  /-- How many instructions may be executed. -/
  stepLimit : Nat
  /-- The arguments of the program. -/
  args : List String
  deriving DecidableEq, Inhabited

/-- What a command line asks for. -/
inductive Request where
  /-- A compilation. -/
  | compile (request : CompileRequest)
  /-- A compilation followed by a run. -/
  | run (request : RunRequest)
  /-- A text. -/
  | tell (text : String)
  deriving DecidableEq, Inhabited

/-- The number below `2 ^ 64` that a text writes, after a plus sign or without one. -/
def stepLimit? (text : String) : Option Nat :=
  let digits := match text.toList with
    | '+' :: digits => digits
    | digits => digits
  if digits.isEmpty || !digits.all Text.isDigit then none
  else
    let n := Text.natOfDigits digits
    if n < 2 ^ 64 then some n else none

/-- The format that a text names. -/
def format? : String → Option Format
  | "il" => some .assembler
  | "json" => some .json
  | _ => none

/-- Whether a text can name a file. -/
def isPath (text : String) : Bool := !text.isEmpty

/-- The option that every command has. -/
def verbose : OptionRule := .flag "verbose" (some 'v')

/-- Accepts one argument, the name of a file. -/
def onePath (before : List String) (argument : String) : Bool := before.isEmpty && isPath argument

/-- What `compile` accepts. -/
def compileRule : CommandRule where
  options := [⟨"output", some 'o', some isPath⟩, ⟨"emit", none, some fun v => (format? v).isSome⟩,
    .flag "keep-going" none, verbose]
  hasVersion := false
  acceptsArgument := onePath

/-- What `run` accepts. -/
def runRule : CommandRule where
  options := [⟨"step-limit", none, some fun v => (stepLimit? v).isSome⟩, verbose]
  hasVersion := false
  acceptsArgument := onePath

/-- The request for a compilation. Words after two dashes are arguments as well. -/
def compileRequest? (words : Words) : Option Request :=
  match words.arguments ++ words.trailing.getD [] with
  | [input] =>
    if isPath input then
      some (.compile ⟨input, words.value? "output",
        ((words.value? "emit").bind format?).getD .assembler, words.has "keep-going"⟩)
    else none
  | _ => none

/-- The request for a run. Words after two dashes are the arguments of the program. -/
def runRequest? (words : Words) : Option Request :=
  match words.arguments with
  | [input] =>
    some (.run ⟨input, ((words.value? "step-limit").bind stepLimit?).getD 10000000,
      words.trailing.getD []⟩)
  | _ => none

/-- The request of a command with the given rule and help texts. -/
def requestOf (rule : CommandRule) (request? : Words → Option Request) (shortHelp longHelp : String)
    (words : List String) : Option Request :=
  match read rule words {} with
  | .command words => request? words
  | .help long => some (.tell (if long then longHelp else shortHelp))
  | .version => none
  | .mistake => none

/-- The help on a command that is named after `help`. -/
def helpRequest? : List String → Option Request
  | [] => some (.tell programHelp)
  | ["compile"] => some (.tell compileLongHelp)
  | ["run"] => some (.tell runHelp)
  | ["help"] => some (.tell helpHelp)
  | _ => none

/-- The request of a command with the given name. -/
def commandRequest? (name : String) (words : List String) : Option Request :=
  match name with
  | "compile" => requestOf compileRule compileRequest? compileHelp compileLongHelp words
  | "run" => requestOf runRule runRequest? runHelp runHelp words
  | "help" => helpRequest? words
  | _ => none

/-- What stands before the name of a command: the words up to it, and the words from it on. A word
that is neither an option nor two dashes is the name. -/
def splitCommand : List String → List String × List String
  | [] => ([], [])
  | word :: rest =>
    match shape word with
    | .plain => ([], word :: rest)
    | .separator => ([word], rest)
    | _ =>
      let (before, after) := splitCommand rest
      (word :: before, after)

/-- What may stand before the name of a command. -/
def programRule : CommandRule where
  options := [verbose]
  hasVersion := true
  acceptsArgument := fun _ _ => false

/-- What a command line asks for; none if it is a mistake. -/
def request? (words : List String) : Option Request :=
  let (before, after) := splitCommand words
  match read programRule before {}, after with
  | .help _, _ => some (.tell programHelp)
  | .version, _ => some (.tell versionText)
  | .mistake, _ => none
  | .command _, [] => none
  | .command words, name :: rest =>
    if words.trailing.isSome then none else commandRequest? name rest

end ManagedC.CommandLine
