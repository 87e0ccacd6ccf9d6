import ManagedC.Compile.EntryPoint
import ManagedC.Compile.Statements
import ManagedC.Target.Module

/-!
# Programs under compilation

A `Program` is what the functions compiled so far have become: the table of functions that can be
called and the module that holds their methods. A `FunctionUnit` is a definition that has been read;
it is compiled as a whole before anything of it reaches the program.
-/

namespace ManagedC

/-- The functions compiled so far. -/
structure Program where
  /-- The functions that can be called. -/
  functions : FunctionTable := {}
  /-- The module with their methods. -/
  module : Module
  deriving DecidableEq, Inhabited

/-- A computation that adds to a program. -/
abbrev Build (α : Type) := ExceptT CompileError (StateM Program) α

/-- A function definition that has been read. -/
structure FunctionUnit where
  /-- The name. -/
  name : String
  /-- The type of the result. -/
  returnType : CType
  /-- The parameters, if anything is known about them. -/
  parameters : Option ParameterInfo
  /-- The body. -/
  body : Body
  /-- Where the declarator begins, which is the place that errors about the function name. -/
  location : Location
  deriving Inhabited

namespace Program

/-- The program without functions. -/
def empty (moduleName : String) : Program := { module := { name := moduleName } }

/-- The name of the method that the program starts with. -/
def entryName? (p : Program) : Option String := p.module.entryMethod?.map (·.name)

/-- Fails if the program has an entry point already. -/
def ensureEntryFree (p : Program) (function : String) (location : Location) :
    Except CompileError Unit :=
  match p.entryName? with
  | some existing => throw (.refused (.duplicateEntryPoint function existing) location)
  | none => pure ()

/-- The program with one more method that cannot be called by name. -/
def addMethod (p : Program) (m : Method) : Program := { p with module := p.module.addMethod m }

/-- The program with one more function. Its method gets the number `p.module.methods.size`. -/
def addFunction (p : Program) (signature : FunctionSignature) (m : Method) : Program :=
  { functions := p.functions.add ⟨signature, p.module.methods.size⟩, module := p.module.addMethod m }

/-- The program with its entry point set on behalf of a function. -/
def setEntryPoint (p : Program) (id : Nat) (function : String) (location : Location) :
    Except CompileError Program :=
  match p.module.setEntryPoint id with
  | .ok module => pure { p with module := module }
  | .error (.alreadySet existing _) =>
    throw (.refused (.duplicateEntryPoint function existing) location)
  | .error (.unknownMethod id) =>
    throw (.refused (.invalidOperands (.missingMethod id)) location)

end Program

namespace Build

/-- A result as a computation that adds nothing. -/
def ofExcept {α : Type} (result : Except CompileError α) : Build α := fun p => (result, p)

end Build

namespace FunctionUnit

/-- Fails because the language has something that is not supported. -/
def unsupported {α : Type} (name : String) (feature : UnsupportedFeature) (location : Location) :
    Except CompileError α :=
  throw (.refused (.unsupported name feature) location)

/-- The unit of a function definition. -/
def ofDefinition (d : FunctionDefinition) : Except CompileError FunctionUnit := do
  let location := d.declarator.location
  let declared ← (d.declarator.resolve d.specifiers).mapError .declaration
  match declared.name with
  | none => throw (.refused .missingIdentifier location)
  | some name =>
    if !d.declarator.direct.isFunction then throw (.misused (.notFunction name) location)
    if declared.isConst then unsupported name (.constReturn declared.type) location
    if !d.declarations.isEmpty then unsupported name .oldStyleParameters location
    return ⟨name, declared.type, declared.parameters, ← d.body.toBody name, location⟩

/-- Whether the program starts with the function. -/
def isEntry (u : FunctionUnit) : Bool := u.name == EntryPoint.functionName

/-- The type of the result on the target machine. An entry function returns an `int`. -/
def targetReturn (u : FunctionUnit) : Except CompileError TargetType :=
  if u.isEntry && u.returnType.target.toOption != some .int32 then
    unsupported u.name (.entryReturn u.returnType) u.location
  else u.returnType.represent u.name u.location

/-- Whether the function needs a starter in a program, once its parameter list is checked. -/
def checkParameters (u : FunctionUnit) (p : Program) : Except CompileError Bool := do
  if u.isEntry then
    let needsStarter ← (EntryPoint.needsStarter u.parameters).mapError fun feature =>
      .refused (.unsupported u.name feature) u.location
    p.ensureEntryFree u.name u.location
    return needsStarter
  else if (u.parameters.map (·.isVariadic)).getD false then
    throw (.refused (.notImplemented u.name .variadicFunctions) u.location)
  else return false

/-- The types of the parameters. -/
def parameterTypes (u : FunctionUnit) : Option (List CType) :=
  u.parameters.map fun info => info.parameters.map (·.type)

/-- What calls to the function are checked against. -/
def signature (u : FunctionUnit) (returnType : TargetType) :
    Except CompileError FunctionSignature := do
  let types ← (u.parameterTypes.getD []).mapM fun type => type.represent u.name u.location
  return ⟨u.name, u.returnType, u.parameterTypes, (u.parameters.map (·.isVariadic)).getD false,
    ⟨u.name, returnType, types⟩⟩

/-- The instructions after the body: an entry function returns zero and a function without a result
returns, unless the body has returned already. -/
def epilogue (u : FunctionUnit) : List Instruction :=
  if u.body.returns then []
  else if u.isEntry then [.constInt32 0, .ret]
  else if u.returnType.isVoid then [.ret]
  else []

/-- Emits the code of the function. -/
def emit (u : FunctionUnit) : Emit Unit := do
  ((u.parameters.map (·.parameters)).getD []).forM fun p =>
    discard <| Emit.bindParameter p.name p.type u.location
  u.body.compile
  u.epilogue.forM Emit.instr

/-- The method of the function. -/
def method (u : FunctionUnit) (signature : FunctionSignature) (functions : FunctionTable) :
    Except CompileError Method :=
  let (result, scope) := u.emit (.begin signature functions)
  result >>= fun _ =>
    scope.assembler.finish.mapError fun fault => .internal (.assembler fault)

/-- Compiles the function and adds it to the program, with a starter if it needs one. -/
def compile (u : FunctionUnit) : Build Unit := do
  let returnType ← Build.ofExcept u.targetReturn
  let needsStarter ← Build.ofExcept (u.checkParameters (← get))
  let signature ← Build.ofExcept (u.signature returnType)
  let method ← Build.ofExcept (u.method signature (← get).functions)
  let starter ← Build.ofExcept <|
    if needsStarter then some <$> EntryPoint.starter signature.method else pure none
  modify (·.addFunction signature method)
  if u.isEntry then
    if let some starter := starter then modify (·.addMethod starter)
    let entry := (← get).module.methods.size - 1
    set (← Build.ofExcept ((← get).setEntryPoint entry u.name u.location))

end FunctionUnit

namespace FunctionDefinition

/-- Compiles a function definition and adds it to the program. -/
def compile (d : FunctionDefinition) : Build Unit := do
  let u ← Build.ofExcept (FunctionUnit.ofDefinition d)
  u.compile

end FunctionDefinition

namespace TranslationUnit

/-- The program of a unit: its functions are compiled in order until one fails. -/
def compile (u : TranslationUnit) (moduleName : String) : Except CompileError Module :=
  let (result, program) := u.functions.forM FunctionDefinition.compile (.empty moduleName)
  result.map fun _ => program.module

/-- A program and the errors so far, after one more definition. It is left out if it fails. -/
def compileNext (state : Program × List CompileError) (d : FunctionDefinition) :
    Program × List CompileError :=
  match d.compile state.1 with
  | (.ok _, program) => (program, state.2)
  | (.error e, program) => (program, state.2 ++ [e])

/-- The program of a unit as far as it can be compiled, and the errors of the functions that were
left out. -/
def compileAll (u : TranslationUnit) (moduleName : String) : Program × List CompileError :=
  u.functions.foldl compileNext (.empty moduleName, [])

end TranslationUnit

end ManagedC
