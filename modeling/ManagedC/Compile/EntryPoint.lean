import ManagedC.Compile.Representation

/-!
# How a program is started

The host starts a program with an array of managed strings, while an entry function written in C
takes the number of its arguments and a native array of native strings. Between the two stands a
method of its own, the starter. It copies the strings to native memory, pins a copy of the array of
their addresses, calls the entry function, and on every way out lets go of the pin and gives the
native memory back.
-/

namespace ManagedC.EntryPoint

/-- The name of the entry function. -/
def functionName : String := "main"

/-- The name of the starter, which no function can have. -/
def starterName : String := "<SyntheticEntrypoint>"

/-- Whether an entry function with the given parameters needs a starter. One that takes no
parameters, or about whose parameters nothing is known, is called by the host directly. -/
def needsStarter : Option ParameterInfo → Except UnsupportedFeature Bool
  | none => pure false
  | some info =>
    if info.isVoid then pure false
    else if info.isVariadic then throw .entryVariadic
    else
      match info.parameters with
      | [count, vector] =>
        if count.type.isArgumentCount && vector.type.isArgumentVector then pure true
        else throw (.entrySignature count.type vector.type)
      | parameters => throw (.entryParameterCount parameters.length)

/-- Whether the starter can call a method. -/
def isBridgeable (entry : MethodRef) : Bool :=
  match entry.parameterTypes with
  | [count, vector] => count == .int32 && vector.acceptsArguments && entry.returnType == .int32
  | _ => false

/-- The starter before it has any code. -/
def emptyStarter : Assembler := .begin starterName .int32 .publicStatic

/-- Emits instructions. -/
def emitAll (code : List Instruction) : Assembly Unit := code.forM Assembly.emit

/-- The length of an array in a local variable, as a number of 32 bits. -/
def lengthOf (array : UInt16) : List Instruction := [.loadLocal array, .arrayLength, .convInt32]

/-- The code of the starter. -/
def starterCode (entry : MethodRef) : Assembly Unit := do
  let args ← Assembly.addParameter (some "args") .hostArguments
  let argc ← Assembly.addLocal (some "argc") .int32 false
  let argv ← Assembly.addLocal (some "argv") .nativeStrings false
  let argvCopy ← Assembly.addLocal (some "argv_copy") .nativeStrings false
  let pinned ← Assembly.addLocal (some "pinned_argv") (.byRef .nativeString) true
  let exitCode ← Assembly.addLocal (some "exit_code") .int32 false
  emitAll [.loadArgument args, .arrayLength, .convInt32, .storeLocal argc]
  -- From here on there is native memory, which the outer handler gives back.
  emitAll [.loadArgument args, .callHelper .argsToArgv, .storeLocal argv]
  discard Assembly.beginTry
  emitAll (lengthOf argv ++ [.newArray .nativeString, .storeLocal argvCopy])
  emitAll ([.loadLocal argv, .loadLocal argvCopy] ++ lengthOf argv ++ [.callHelper .arrayCopy])
  -- The pin lasts exactly as long as the call, and the inner handler lets go of it.
  discard Assembly.beginTry
  emitAll [.loadLocal argvCopy, .constInt32 0, .elementAddress .nativeString, .storeLocal pinned]
  emitAll [.loadLocal argc, .loadLocal pinned, .convAddress, .call entry, .storeLocal exitCode]
  Assembly.beginFinally
  emitAll [.constInt32 0, .convAddress, .storeLocal pinned]
  Assembly.endTry
  Assembly.beginFinally
  emitAll [.loadLocal argv, .callHelper .freeArgv]
  Assembly.endTry
  emitAll [.loadLocal exitCode, .ret]

/-- The starter of an entry function that takes the number of its arguments and the arguments. -/
def starter (entry : MethodRef) : Except CompileError Method :=
  if isBridgeable entry then
    let (result, assembler) := starterCode entry emptyStarter
    (result >>= fun _ => assembler.finish).mapError fun fault => .internal (.assembler fault)
  else throw (.internal (.notBridgeable entry))

end ManagedC.EntryPoint
