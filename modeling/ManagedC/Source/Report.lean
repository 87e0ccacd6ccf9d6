import ManagedC.Source.Span

/-!
# Errors, diagnostics and the log of both

A `Report` is what the compiler says when it gives up on a function or a file: a category, a place
and a message, or a message alone. A `Diagnostic` is an entry of a `DiagnosticLog`, which collects
them while the compiler goes on with the next function. The numbers of errors and warnings are read
off the log.
-/

namespace ManagedC

/-- What kind of trouble there is at a place in the source. -/
inductive ReportCategory where
  /-- A construct that the language has and the compiler refuses. -/
  | unsupported
  /-- A construct that is left for later. -/
  | notImplemented
  /-- A definition without a name. -/
  | missingIdentifier
  /-- A breach of the rules of the language. -/
  | semantic
  deriving DecidableEq, Inhabited

/-- An error as it is reported to the user. -/
inductive Report where
  /-- Trouble at a place in the source. -/
  | located (category : ReportCategory) (location : Location) (message : String)
  /-- Trouble with a file. -/
  | io (message : String)
  /-- A mistake of the compiler itself. -/
  | internal (message : String)
  deriving DecidableEq, Inhabited

/-- The words that introduce a category. -/
def ReportCategory.title : ReportCategory → String
  | .unsupported => "Unsupported construct"
  | .notImplemented => "Not implemented"
  | .missingIdentifier => "Missing identifier"
  | .semantic => "Semantic error"

namespace Report

/-- The whole message. -/
def text : Report → String
  | .located category location message => s!"{category.title} at {location.text}: {message}"
  | .io message => s!"IO error: {message}"
  | .internal message => s!"Internal compiler error: {message}"

/-- The place of the trouble, if it has one. -/
def location? : Report → Option Location
  | .located _ location _ => some location
  | .io _ => none
  | .internal _ => none

end Report

/-- How serious a diagnostic is. -/
inductive Severity where
  /-- The compilation fails. -/
  | error
  /-- The compilation may go on. -/
  | warning
  /-- A remark. -/
  | note
  deriving DecidableEq, Inhabited

namespace Severity

/-- The word that introduces a diagnostic. -/
def text : Severity → String
  | .error => "error"
  | .warning => "warning"
  | .note => "note"

/-- The name in documents. -/
def name : Severity → String
  | .error => "Error"
  | .warning => "Warning"
  | .note => "Note"

/-- All severities. -/
def all : List Severity := [.error, .warning, .note]

end Severity

/-- A message with a severity, a place and notes. -/
structure Diagnostic where
  /-- How serious it is. -/
  severity : Severity
  /-- What it says. -/
  message : String
  /-- The source text it is about. -/
  span : Span
  /-- Remarks, in order. -/
  notes : List String
  deriving DecidableEq, Inhabited

namespace Diagnostic

/-- The message after its severity, then each note on a line of its own. -/
def text (d : Diagnostic) : String :=
  d.notes.foldl (fun shown note => shown ++ s!"\n  note: {note}") s!"{d.severity.text}: {d.message}"

/-- The diagnostic of a reported error: an error with the full text, at the place of the trouble. -/
def ofReport (r : Report) : Diagnostic :=
  ⟨.error, r.text, (r.location?.map Span.point).getD .unknown, []⟩

/-- The document of a diagnostic. -/
def toJson (d : Diagnostic) : Json :=
  .record [("severity", .ofText d.severity.name), ("message", .ofText d.message),
    ("span", d.span.toJson), ("notes", .arr (d.notes.map .ofText))]

/-- The diagnostic that a document describes. -/
def ofJson? : Nat → Json → Option Diagnostic
  | 0, _ => none
  | levels + 1, j =>
    match Json.fields? [Json.field "severity", Json.field "message", Json.field "span",
        Json.field "notes"] j with
    | some [some severity, some message, some span, some notes] => do
      return ⟨← Json.named? Severity.name Severity.all levels severity, ← message.text?,
        ← Span.ofJson? levels span, ← Json.list? (fun _ => Json.text?) levels notes⟩
    | _ => none

end Diagnostic

/-- The diagnostics so far, in order. -/
structure DiagnosticLog where
  /-- The entries. -/
  entries : List Diagnostic := []
  deriving DecidableEq, Inhabited

namespace DiagnosticLog

/-- A number of things, in the singular if there is one. -/
def counted (n : Nat) (thing : String) : String := if n = 1 then s!"1 {thing}" else s!"{n} {thing}s"

/-- The log with one more entry. -/
def add (log : DiagnosticLog) (d : Diagnostic) : DiagnosticLog := ⟨log.entries ++ [d]⟩

/-- The log with a reported error. -/
def addReport (log : DiagnosticLog) (r : Report) : DiagnosticLog := log.add (.ofReport r)

/-- How many entries have a severity. -/
def count (log : DiagnosticLog) (severity : Severity) : Nat :=
  log.entries.countP fun d => d.severity == severity

/-- Whether there is an error. -/
def hasErrors (log : DiagnosticLog) : Bool := 0 < log.count .error

/-- One line that tells the numbers of errors and warnings. -/
def summary (log : DiagnosticLog) : String :=
  match log.count .error, log.count .warning with
  | 0, 0 => "No errors or warnings"
  | 0, warnings => counted warnings "warning"
  | errors, 0 => counted errors "error"
  | errors, warnings => counted errors "error" ++ " and " ++ counted warnings "warning"

end DiagnosticLog

end ManagedC
