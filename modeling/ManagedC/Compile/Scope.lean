import ManagedC.Compile.Representation

/-!
# The state of a function under compilation

A `Scope` holds the method under construction, the names that can be referred to and the labels that
the ends of loops jump to. `Emit` is a computation that works on one. A computation that fails leaves
behind what it emitted before it failed, but the blocks and loops that it opened are closed again.
-/

namespace ManagedC

/-- What calls to a function are checked against. -/
structure FunctionSignature where
  /-- The name. -/
  name : String
  /-- The type of the result. -/
  returnType : CType
  /-- The types of the parameters, if anything is known about them. -/
  parameters : Option (List CType)
  /-- Whether more arguments may follow. -/
  isVariadic : Bool
  /-- The method that is called. -/
  method : MethodRef
  deriving DecidableEq, Inhabited

/-- A compiled function. -/
structure FunctionEntry where
  /-- What calls to it are checked against. -/
  signature : FunctionSignature
  /-- The number of its method. -/
  method : Nat
  deriving DecidableEq, Inhabited

/-- The functions compiled so far, in order. A name may come several times; the last one counts. -/
structure FunctionTable where
  /-- The entries. -/
  entries : List FunctionEntry := []
  deriving DecidableEq, Inhabited

namespace FunctionTable

/-- The table with one more function. -/
def add (t : FunctionTable) (e : FunctionEntry) : FunctionTable := ⟨t.entries ++ [e]⟩

/-- The last function with a name. -/
def find? (t : FunctionTable) (name : String) : Option FunctionEntry :=
  t.entries.reverse.find? fun e => e.signature.name == name

end FunctionTable

/-- Where a variable is kept. -/
inductive Slot where
  /-- In an argument. -/
  | parameter (index : UInt16)
  /-- In a local variable of the method. -/
  | local (index : UInt16)
  deriving DecidableEq, Inhabited

/-- A variable that can be referred to. -/
structure Variable where
  /-- Where it is kept. -/
  slot : Slot
  /-- Its type. -/
  type : CType
  deriving DecidableEq, Inhabited

namespace Variable

/-- The instruction that pushes the variable. -/
def load (v : Variable) : Instruction :=
  match v.slot with
  | .parameter index => .loadArgument index
  | .local index => .loadLocal index

/-- The instruction that pops into the variable. -/
def store (v : Variable) : Instruction :=
  match v.slot with
  | .parameter index => .storeArgument index
  | .local index => .storeLocal index

end Variable

/-- The labels that the statements which end a loop, or a round of it, jump to. -/
structure LoopLabels where
  /-- The label after the loop. -/
  exit : Label
  /-- The label of the next round. -/
  next : Label
  deriving DecidableEq, Inhabited

/-- Names with what they refer to, the latest first. -/
abbrev Names := List (String × Variable)

/-- The state of a function under compilation. -/
structure Scope where
  /-- The method under construction. -/
  assembler : Assembler
  /-- The functions that can be called. -/
  functions : FunctionTable
  /-- The function itself. -/
  signature : FunctionSignature
  /-- The parameters. -/
  parameters : Names := []
  /-- The open blocks, the innermost first. -/
  blocks : List Names := []
  /-- The open loops, the innermost first. -/
  loops : List LoopLabels := []
  deriving DecidableEq, Inhabited

namespace Scope

/-- The scope of a function before anything is emitted. -/
def begin (signature : FunctionSignature) (functions : FunctionTable) : Scope where
  assembler := .begin signature.name signature.method.returnType .publicStatic
  functions := functions
  signature := signature

/-- What a name refers to: its declaration in the innermost block that has one, else the
parameter. -/
def findVariable? (s : Scope) (name : String) : Option Variable :=
  (s.blocks.findSome? fun names => names.lookup name) <|> s.parameters.lookup name

/-- The function that a name refers to: the function itself, else the last one compiled. -/
def findFunction? (s : Scope) (name : String) : Option FunctionSignature :=
  if s.signature.name == name then some s.signature
  else (s.functions.find? name).map (·.signature)

/-- The scope with one more block. -/
def openBlock (s : Scope) : Scope := { s with blocks := [] :: s.blocks }

/-- The scope without its innermost block. -/
def closeBlock (s : Scope) : Scope := { s with blocks := s.blocks.tail }

/-- The scope with one more loop. -/
def openLoop (labels : LoopLabels) (s : Scope) : Scope := { s with loops := labels :: s.loops }

/-- The scope without its innermost loop. -/
def closeLoop (s : Scope) : Scope := { s with loops := s.loops.tail }

/-- The scope with a name declared in the innermost block; there is one afterwards in any case. -/
def declareName (name : String) (v : Variable) (s : Scope) : Scope :=
  match s.blocks with
  | [] => { s with blocks := [[(name, v)]] }
  | names :: outer => { s with blocks := ((name, v) :: names) :: outer }

end Scope

/-- A computation that emits code into a scope. -/
abbrev Emit (α : Type) := ExceptT CompileError (StateM Scope) α

namespace Emit

/-- A step of assembling the method under construction. -/
def assemble {α : Type} (step : Assembly α) : Emit α := fun s =>
  let (result, assembler) := step s.assembler
  (result.mapError fun fault => .internal (.assembler fault), { s with assembler := assembler })

/-- Appends an instruction. -/
def instr (i : Instruction) : Emit Unit := assemble (.emit i)

/-- A fresh label. -/
def newLabel : Emit Label := assemble .newLabel

/-- Binds a label to the next instruction. -/
def mark (label : Label) : Emit Unit := assemble (.mark label)

/-- Fails with a refusal. -/
def refuse {α : Type} (refusal : Refusal) (location : Location) : Emit α :=
  throw (.refused refusal location)

/-- Fails because the operands of a construct do not fit. -/
def badOperands {α : Type} (fault : OperandFault) (location : Location) : Emit α :=
  refuse (.invalidOperands fault) location

/-- The name of the function under compilation. -/
def functionName : Emit String := do return (← get).signature.name

/-- Fails because of something that is left for later. -/
def missing {α : Type} (feature : MissingFeature) (location : Location) : Emit α := do
  refuse (.notImplemented (← functionName) feature) location

/-- A result as a computation that emits nothing. -/
def ofExcept {α : Type} (result : Except CompileError α) : Emit α := fun s => (result, s)

/-- The type of the target machine that holds the values of a type. -/
def represent (type : CType) (location : Location) : Emit TargetType := do
  ofExcept (type.represent (← functionName) location)

/-- A computation between two changes of the scope, the second of which is made in any case. -/
def bracket {α : Type} (enter exit : Scope → Scope) (body : Emit α) : Emit α := fun s =>
  let (result, s) := body (enter s)
  (result, exit s)

/-- A computation inside a block of its own. -/
def withBlock {α : Type} (body : Emit α) : Emit α := bracket Scope.openBlock Scope.closeBlock body

/-- A computation inside a loop. -/
def withLoop {α : Type} (exit next : Label) (body : Emit α) : Emit α :=
  bracket (Scope.openLoop ⟨exit, next⟩) Scope.closeLoop body

/-- Appends a parameter; if it has a name, the name refers to it from now on. -/
def bindParameter (name : Option String) (type : CType) (location : Location) :
    Emit UInt16 := do
  let target ← represent type location
  let index ← assemble (.addParameter name target)
  if let some name := name then
    let s ← get
    set { s with parameters := (name, ⟨.parameter index, type⟩) :: s.parameters }
    if (s.parameters.lookup name).isSome then
      throw (.misused (.duplicateParameter name s.signature.name) location)
  return index

/-- Declares a local variable in the innermost block. -/
def declareLocal (name : String) (type : CType) (location : Location) : Emit Variable := do
  if type.isVoid then throw (.misused (.voidLocal name) location)
  let target ← represent type location
  modify fun s => if s.blocks.isEmpty then s.openBlock else s
  if (((← get).blocks.headD []).lookup name).isSome then
    throw (.misused (.duplicateLocal name) location)
  let index ← assemble (.addLocal (some name) target false)
  let v : Variable := ⟨.local index, type⟩
  modify (Scope.declareName name v)
  return v

/-- A local variable without a name, for a value in between. -/
def addTemporary (type : TargetType) : Emit UInt16 := assemble (.addLocal none type false)

/-- The variable that a name refers to. -/
def lookupVariable (name : String) (location : Location) : Emit Variable := do
  match (← get).findVariable? name with
  | some v => return v
  | none => refuse (.undefinedVariable name) location

end Emit

end ManagedC
