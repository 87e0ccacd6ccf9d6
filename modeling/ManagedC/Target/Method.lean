import ManagedC.Target.LabelTable
import ManagedC.Text

/-!
# Methods

A method is a signature, a table of local variables and a linear body. The body may have protected
regions: a region is a stretch of instructions with a handler that runs whenever control leaves the
stretch, by a jump or by a fault.
-/

namespace ManagedC

/-- How a method may be called. -/
structure MethodAttributes where
  /-- Whether it is called from outside the module. -/
  isPublic : Bool
  /-- Whether it is called without an object. -/
  isStatic : Bool
  deriving DecidableEq, Inhabited

/-- A parameter of a method. -/
structure MethodParameter where
  /-- The name, if it has one. -/
  name : Option String
  /-- The type. -/
  type : TargetType
  deriving DecidableEq, Inhabited

/-- A local variable of a method. -/
structure LocalVariable where
  /-- The name, if it has one. -/
  name : Option String
  /-- The type. -/
  type : TargetType
  /-- Whether an array that it points into stays in its place. -/
  pinned : Bool
  deriving DecidableEq, Inhabited

/-- A protected region and its handler, delimited by labels. -/
structure Handler where
  /-- The start of the protected region. -/
  tryStart : Label
  /-- The end of the protected region. -/
  tryEnd : Label
  /-- The start of the handler. -/
  handlerStart : Label
  /-- The end of the handler. -/
  handlerEnd : Label
  deriving DecidableEq, Inhabited

/-- A protected region and its handler, delimited by offsets. -/
structure Region where
  /-- The start of the protected region. -/
  tryStart : Nat
  /-- The end of the protected region, which is not part of it. -/
  tryEnd : Nat
  /-- The start of the handler. -/
  handlerStart : Nat
  /-- The end of the handler, which is not part of it. -/
  handlerEnd : Nat
  deriving DecidableEq, Inhabited

/-- The code of a method. -/
structure MethodBody where
  /-- The instructions, numbered from zero. -/
  instructions : Array Instruction := #[]
  /-- The offsets of labels. -/
  labels : LabelTable := {}
  /-- The protected regions, inner ones first. -/
  handlers : List Handler := []
  deriving DecidableEq, Inhabited

/-- A callable unit. -/
structure Method where
  /-- The name. -/
  name : String
  /-- How it may be called. -/
  attributes : MethodAttributes
  /-- The type of the result. -/
  returnType : TargetType
  /-- The parameters in order. -/
  parameters : List MethodParameter
  /-- The local variables, numbered from zero. -/
  locals : Array LocalVariable
  /-- The code. -/
  body : MethodBody
  deriving DecidableEq, Inhabited

namespace MethodAttributes

/-- The attributes of every compiled function. -/
def publicStatic : MethodAttributes := ⟨true, true⟩

/-- The words of the attributes. -/
def text (a : MethodAttributes) : String :=
  (if a.isPublic then "public" else "private") ++ (if a.isStatic then " static" else "")

end MethodAttributes

namespace Region

/-- Whether an offset is in the protected region. -/
def protects (r : Region) (offset : Nat) : Bool := r.tryStart ≤ offset && offset < r.tryEnd

end Region

namespace MethodBody

/-- The offsets of a region, if all its labels are bound. -/
def region? (b : MethodBody) (h : Handler) : Option Region := do
  return ⟨← b.labels.offset? h.tryStart, ← b.labels.offset? h.tryEnd,
    ← b.labels.offset? h.handlerStart, ← b.labels.offset? h.handlerEnd⟩

end MethodBody

namespace Method

/-- A method without parameters, variables and code. -/
def declare (name : String) (returnType : TargetType) (attributes : MethodAttributes) : Method :=
  ⟨name, attributes, returnType, [], #[], {}⟩

/-- The reference by which calls name the method. -/
def ref (m : Method) : MethodRef := ⟨m.name, m.returnType, m.parameters.map (·.type)⟩

/-- How many return instructions there are. -/
def returnCount (m : Method) : Nat :=
  m.body.instructions.toList.countP fun i => i == .ret

/-! ## Assembler text -/

/-- A type, and a name if there is one. -/
def typedName (type : String) : Option String → String
  | none => type
  | some name => type ++ " " ++ name

/-- A local variable with its number. -/
def localText (slot : Nat) (v : LocalVariable) : String :=
  s!"[{slot}] " ++ typedName (v.type.text ++ if v.pinned then " pinned" else "") v.name

/-- The line of a label. -/
def labelLine (label : Label) : String := s!"  L{label}:"

/-- The lines of the instructions from an offset on, each after the labels bound to it. -/
def codeLines (labels : LabelTable) : Nat → List Instruction → List String
  | offset, [] => (labels.labelsAt offset).map labelLine
  | offset, i :: rest =>
    (labels.labelsAt offset).map labelLine
      ++ s!"    IL_{Text.hexadecimal4 offset}: {i.text}" :: codeLines labels (offset + 1) rest

/-- The line of a protected region. -/
def handlerLine (h : Handler) : String :=
  s!"  .try L{h.tryStart} to L{h.tryEnd} finally handler L{h.handlerStart} to L{h.handlerEnd}"

/-- The line with the signature. -/
def headLine (m : Method) : String :=
  s!".method {m.attributes.text} {m.returnType.text} {m.name}("
    ++ ", ".intercalate (m.parameters.map fun p => typedName p.type.text p.name)
    ++ ") cil managed"

/-- The line of the local variables, if there are any. -/
def localLines (m : Method) : List String :=
  if m.locals.isEmpty then []
  else
    ["  .locals init (" ++ ", ".intercalate (m.locals.toList.mapIdx localText) ++ ")"]

/-- The lines of a method. -/
def lines (m : Method) (isEntryPoint : Bool) : List String :=
  [m.headLine, "\x7b"] ++ (if isEntryPoint then ["  .entrypoint"] else []) ++ m.localLines
    ++ codeLines m.body.labels 0 m.body.instructions.toList
    ++ m.body.handlers.map handlerLine ++ ["\x7d"]

/-- Lines put together, each with its line break. -/
def unlines (lines : List String) : String := String.join (lines.map (· ++ "\n"))

/-- The method in assembler text. -/
def text (m : Method) : String := unlines (m.lines false)

end Method

/-! ## Documents -/

namespace MethodAttributes

/-- The document of attributes. -/
def toJson (a : MethodAttributes) : Json :=
  .record [("is_public", .bool a.isPublic), ("is_static", .bool a.isStatic)]

/-- The attributes that a document describes. -/
def ofJson? : Nat → Json → Option MethodAttributes
  | 0, _ => none
  | _ + 1, j =>
    match Json.fields? [Json.field "is_public", Json.field "is_static"] j with
    | some [some isPublic, some isStatic] => do return ⟨← isPublic.bool?, ← isStatic.bool?⟩
    | _ => none

end MethodAttributes

namespace MethodParameter

/-- The document of a parameter. -/
def toJson (p : MethodParameter) : Json :=
  .record [("name", .ofText? p.name), ("ty", p.type.toJson)]

/-- The parameter that a document describes. -/
def ofJson? : Nat → Json → Option MethodParameter
  | 0, _ => none
  | levels + 1, j =>
    match Json.fields? [Json.field "name", Json.field "ty"] j with
    | some [name, some type] => do
      return ⟨← Json.optional? Json.text? name, ← TargetType.ofJson? levels type⟩
    | _ => none

end MethodParameter

namespace LocalVariable

/-- The document of a local variable. -/
def toJson (v : LocalVariable) : Json :=
  .record [("name", .ofText? v.name), ("ty", v.type.toJson), ("pinned", .bool v.pinned)]

/-- The local variable that a document describes. -/
def ofJson? : Nat → Json → Option LocalVariable
  | 0, _ => none
  | levels + 1, j =>
    match Json.fields? [Json.field "name", Json.field "ty", Json.field "pinned"] j with
    | some [name, some type, some pinned] => do
      return ⟨← Json.optional? Json.text? name, ← TargetType.ofJson? levels type,
        ← pinned.bool?⟩
    | _ => none

end LocalVariable

namespace Handler

/-- The document of a region. -/
def toJson (h : Handler) : Json :=
  .record [("try_start", .ofNat h.tryStart), ("try_end", .ofNat h.tryEnd),
    ("handler_start", .ofNat h.handlerStart), ("handler_end", .ofNat h.handlerEnd)]

/-- The region that a document describes. -/
def ofJson? : Nat → Json → Option Handler
  | 0, _ => none
  | _ + 1, j =>
    match Json.fields? [Json.field "try_start", Json.field "try_end", Json.field "handler_start",
        Json.field "handler_end"] j with
    | some [some tryStart, some tryEnd, some handlerStart, some handlerEnd] => do
      return ⟨← Instruction.label? tryStart, ← Instruction.label? tryEnd,
        ← Instruction.label? handlerStart, ← Instruction.label? handlerEnd⟩
    | _ => none

end Handler

namespace MethodBody

/-- The document of a body. -/
def toJson (b : MethodBody) : Json :=
  .record [("instructions", .arr (b.instructions.toList.map Instruction.toJson)),
    ("labels", b.labels.toJson), ("handlers", .arr (b.handlers.map Handler.toJson))]

/-- The body that a document describes. -/
def ofJson? : Nat → Json → Option MethodBody
  | 0, _ => none
  | levels + 1, j =>
    match Json.fields? [Json.field "instructions", Json.field "labels", Json.field "handlers"]
        j with
    | some [some instructions, some labels, some handlers] => do
      return ⟨(← Json.list? Instruction.ofJson? levels instructions).toArray,
        ← LabelTable.ofJson? levels labels, ← Json.list? Handler.ofJson? levels handlers⟩
    | _ => none

end MethodBody

namespace Method

/-- The document of a method. -/
def toJson (m : Method) : Json :=
  .record [("name", .ofText m.name), ("attributes", m.attributes.toJson),
    ("return_type", m.returnType.toJson),
    ("parameters", .arr (m.parameters.map MethodParameter.toJson)),
    ("locals", .arr (m.locals.toList.map LocalVariable.toJson)), ("body", m.body.toJson)]

/-- The method that a document describes. -/
def ofJson? : Nat → Json → Option Method
  | 0, _ => none
  | levels + 1, j =>
    match Json.fields? [Json.field "name", Json.field "attributes", Json.field "return_type",
        Json.field "parameters", Json.field "locals", Json.field "body"] j with
    | some [some name, some attributes, some returnType, some parameters, some locals,
        some body] => do
      return ⟨← name.text?, ← MethodAttributes.ofJson? levels attributes,
        ← TargetType.ofJson? levels returnType,
        ← Json.list? MethodParameter.ofJson? levels parameters,
        (← Json.list? LocalVariable.ofJson? levels locals).toArray,
        ← MethodBody.ofJson? levels body⟩
    | _ => none

end Method

end ManagedC
