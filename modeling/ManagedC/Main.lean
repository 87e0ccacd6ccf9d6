import ManagedC.CommandLine.Directory

/-!
# Entry point of the program

Reads the file of the request, asks for the answer and carries it out.
-/

open ManagedC CommandLine

/-- The number of an error of the operating system. Some operations give the negative number. -/
def errorNumber : IO.Error → Nat
  | .noFileOrDirectory _ code _ | .permissionDenied _ code _ | .inappropriateType _ code _
  | .invalidArgument _ code _ => min code.toNat (2 ^ 32 - code.toNat)
  | _ => 0

/-- What an error of the operating system says. -/
def errorText (e : IO.Error) : String :=
  match FileFault.ofNumber? (errorNumber e) with
  | some fault => fault.message
  | none => toString e

/-- An action with its outcome. -/
def attempt {α : Type} (action : IO α) : IO (Except String α) := do
  try return .ok (← action) catch e => return .error (errorText e)

/-- Carries out an answer. -/
def perform (response : Response) : IO UInt32 := do
  IO.print response.output
  IO.eprint response.errors
  return response.code.toUInt32

/-- The program. -/
def main (words : List String) : IO UInt32 := do
  match request? words with
  | none => perform .mistake
  | some request =>
    let source ← match request.input? with
      | some path => attempt (IO.FS.readFile path)
      | none => pure (.ok "")
    let response := request.respond source
    match response.file with
    | none => perform response
    | some (path, text) =>
      match ← attempt (IO.FS.writeFile path text) with
      | .ok () => perform response
      | .error cause => perform (request.unwritten cause)
