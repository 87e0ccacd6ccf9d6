import ManagedC.CommandLine.Request
import ManagedC.Compile.Program
import ManagedC.Machine.Session
import ManagedC.Syntax.Document

/-!
# The program

What the program answers to a request, apart from reading and writing files: those are done outside,
and their outcome is handed in. The name of a compiled program is that of its file without the
ending.
-/

namespace ManagedC.CommandLine

/-- What the program answers. -/
structure Response where
  /-- What goes to the standard output. -/
  output : String := ""
  /-- What goes to the standard error output. -/
  errors : String := ""
  /-- A file to write, with its text. -/
  file : Option (String × String) := none
  /-- The exit code. -/
  code : UInt8 := 0
  deriving DecidableEq, Inhabited

namespace Response

/-- The answer that tells of a failure. -/
def failure (doing input cause : String) : Response :=
  { errors := s!"Error {doing} {input}: {cause}\n", code := 1 }

/-- The answer with lines written to the standard error output first. -/
def after (lines : List String) (r : Response) : Response :=
  { r with errors := block lines ++ r.errors }

/-- The answer to a mistaken command line. -/
def mistake : Response :=
  { errors := "error: invalid arguments\n\nFor more information, try '--help'.\n", code := 2 }

end Response

/-- The parts of a path between slashes that are not empty and do not stand for the directory
itself. -/
def pathParts (path : String) : List String :=
  (path.splitOn "/").filter fun part => part ≠ "" && part ≠ "."

/-- The name of a file without its ending. A name that has nothing before its only dot is kept. -/
def stem (name : String) : String :=
  let reversed := name.toList.reverse
  match reversed.dropWhile (· ≠ '.') with
  | [] => name
  | _ :: before => if before.isEmpty then name else String.ofList before.reverse

/-- The name of the program in a file. -/
def moduleName (path : String) : String :=
  match (pathParts path).getLast? with
  | none => "module"
  | some ".." => "module"
  | some name => stem name

/-- The unit in a file that was read, or what went wrong. -/
def readUnit (source : Except String String) : Except String TranslationUnit := do
  match TranslationUnit.parse? (← source) with
  | some unit => return unit
  | none => throw (Report.io "malformed translation unit").text

/-- A compiled program in a format. -/
def render (program : Module) : Format → String
  | .assembler => program.text
  | .json => program.toJson.pretty

/-- The answer to a compilation that gave a program. -/
def deliver (request : CompileRequest) (program : Module) : Response :=
  match request.output with
  | some path => { file := some (path, render program request.format) }
  | none => { output := render program request.format }

/-- The program of a unit as the commands compile it. If the compilation is to keep going, all
functions are compiled and all their errors told. A failure comes with the lines to print and its
cause. -/
def compileUnit (unit : TranslationUnit) (name : String) (keepGoing : Bool) :
    Except (List String × String) Module :=
  if keepGoing then
    let (program, errors) := unit.compileAll name
    let log := errors.foldl (fun log e => log.addReport e.report) ({} : DiagnosticLog)
    if log.hasErrors then .error (log.entries.map Diagnostic.text, log.summary)
    else .ok program.module
  else (unit.compile name).mapError fun e => ([], e.report.text)

namespace CompileRequest

/-- The answer to a request for a compilation, given the text of the file or why it cannot be
read. -/
def respond (request : CompileRequest) (source : Except String String) : Response :=
  match readUnit source with
  | .error cause => .failure "compiling" request.input cause
  | .ok unit =>
    match compileUnit unit (moduleName request.input) request.keepGoing with
    | .error (lines, cause) => (Response.failure "compiling" request.input cause).after lines
    | .ok program => deliver request program

end CompileRequest

namespace RunRequest

/-- The answer to a request for a run, given the text of the file or why it cannot be read. -/
def respond (request : RunRequest) (source : Except String String) : Response :=
  let result : Except String Int32 := do
    let unit ← readUnit source
    let program ← (compileUnit unit (moduleName request.input) false).mapError (·.2)
    let session : Session := { program := program, limits := { steps := request.stepLimit } }
    match session.runEntry request.args with
    | some (result, _) => result.mapError Failure.message
    | none => throw "the program never stops"
  match result with
  | .ok code => { code := UInt8.ofInt code.toInt }
  | .error cause => .failure "running" request.input cause

end RunRequest

namespace Request

/-- The file that has to be read. -/
def input? : Request → Option String
  | .compile request => some request.input
  | .run request => some request.input
  | .tell _ => none

/-- The answer to a request, given the text of its file or why it cannot be read. -/
def respond (request : Request) (source : Except String String) : Response :=
  match request with
  | .compile request => request.respond source
  | .run request => request.respond source
  | .tell text => { output := text }

/-- The answer if the file to write cannot be written. -/
def unwritten (request : Request) (cause : String) : Response :=
  .failure "compiling" (request.input?.getD "") cause

end Request

end ManagedC.CommandLine
