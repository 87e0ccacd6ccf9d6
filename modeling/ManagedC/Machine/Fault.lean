import ManagedC.Machine.Value
import ManagedC.Text

/-!
# Faults of the machine

A fault is what an instruction does instead of its work. It carries its cause; the wording is in one
place. A `Crash` is a fault with the method and the instruction that it arose at, and a `Failure`
is the end of a program that does not give an exit code.
-/

namespace ManagedC

/-- A value or type that does not fit its use. -/
inductive Mismatch where
  /-- An integer is wanted. -/
  | notInteger (found : Value)
  /-- An object is wanted. -/
  | notObject (found : Value)
  /-- A pointer is wanted. -/
  | notPointer (found : Value)
  /-- A string is wanted. -/
  | notString (id : Nat)
  /-- An array is wanted. -/
  | notArray (id : Nat)
  /-- Only arrays are pinned. -/
  | notPinnable (id : Nat)
  /-- An array of strings is wanted. -/
  | notStrings (element : TargetType)
  /-- Two arrays have elements of different types. -/
  | differentElements (source destination : TargetType)
  /-- There is no conversion to an integer. -/
  | noInteger (found : Value)
  /-- There is no conversion to an address. -/
  | noAddress (found : Value)
  /-- The type is not loaded from native memory. -/
  | nativeLoad (type : TargetType)
  /-- The type is not stored to native memory. -/
  | nativeStore (type : TargetType)
  /-- The elements have no size. -/
  | noElementSize (type : TargetType)
  /-- The operation does not apply. -/
  | operands (op : BinaryInstr) (left right : Value)
  /-- There is no order. -/
  | unordered (left right : Value)
  /-- The exit code is no integer. -/
  | exitCode (found : Value)
  deriving DecidableEq, Inhabited

/-- Something that a well-formed program does not do. -/
inductive Malformation where
  /-- There is no such object. -/
  | danglingObject (id : Nat)
  /-- There is no such block. -/
  | unknownBlock (id : Nat)
  /-- A service gets the wrong number of arguments. -/
  | helperArguments (helper : Helper) (found : Nat)
  /-- The evaluation stack is empty. -/
  | stackUnderflow (method : String)
  /-- A protected region is not delimited. -/
  | unboundRegion (method : String)
  /-- A jump has no target. -/
  | unboundLabel (label : Label)
  /-- A method gets the wrong number of arguments. -/
  | argumentCount (method : String) (found expected : Nat)
  /-- A handler ends where none is running. -/
  | strayEndFinally
  /-- A handler returns. -/
  | handlerReturned
  /-- There is no instruction. -/
  | fellOff (method : String)
  /-- There are too few values for the arguments of a call. -/
  | missingArguments (method : String)
  /-- There are too few values for the arguments of a service. -/
  | missingHelperArguments (helper : Helper)
  /-- There is no such argument. -/
  | noArgument (slot : UInt16)
  /-- There is no such local variable. -/
  | noLocal (slot : UInt16)
  deriving DecidableEq, Inhabited

/-- What goes wrong at an instruction. -/
inductive Fault where
  /-- An unmanaged pointer into an array that is not pinned is used. -/
  | accessViolation (object : Nat)
  /-- A block is freed twice. -/
  | doubleFree (block : Nat)
  /-- A freed block is used. -/
  | useAfterFree (block : Nat)
  /-- A null reference is used. -/
  | nullReference
  /-- A number is divided by zero. -/
  | divideByZero
  /-- An index is outside an array. -/
  | indexOutOfRange (index : Int64) (length : Nat)
  /-- An access is outside a block, or between the elements of an array. -/
  | outOfBounds (offset : Int64) (size : Nat)
  /-- A value or type does not fit. -/
  | typeMismatch (cause : Mismatch)
  /-- The program is not well-formed. -/
  | invalidProgram (cause : Malformation)
  /-- There is no method of the name. -/
  | missingMethod (name : String)
  /-- Too many calls are open. -/
  | stackOverflow (limit : Nat)
  /-- Too many instructions are executed. -/
  | stepLimitExceeded (limit : Nat)
  deriving DecidableEq, Inhabited

/-- A fault and the place that it arose at. -/
structure Crash where
  /-- The name of the method. -/
  method : String
  /-- The number of the instruction. -/
  offset : Nat
  /-- The fault. -/
  fault : Fault
  deriving DecidableEq, Inhabited

/-- The end of a program that gives no exit code. -/
inductive Failure where
  /-- The module designates no method to start with. -/
  | noEntryPoint
  /-- The method to start with takes parameters that the host does not have. -/
  | unsupportedEntry (method : String)
  /-- A fault was not dealt with. -/
  | crash (crash : Crash)
  deriving DecidableEq, Inhabited

namespace Mismatch

/-- What is said about the mismatch. -/
def message : Mismatch → String
  | .notInteger found => s!"expected an integer, found {found.text}"
  | .notObject found => s!"expected an object, found {found.text}"
  | .notPointer found => s!"expected a pointer, found {found.text}"
  | .notString id => s!"object #{id} is not a string"
  | .notArray id => s!"object #{id} is not an array"
  | .notPinnable id => s!"object #{id} cannot be pinned"
  | .notStrings element => s!"ArgsToArgv expects string[], got {element.text}[]"
  | .differentElements source destination =>
    s!"cannot copy {source.text}[] into {destination.text}[]"
  | .noInteger found => s!"cannot convert {found.text} to an integer"
  | .noAddress found => s!"cannot convert {found.text} to a native pointer"
  | .nativeLoad type => s!"cannot load {type.text} from native memory"
  | .nativeStore type => s!"cannot store {type.text} into native memory"
  | .noElementSize type => s!"{type.text} has no element size"
  | .operands op left right => s!"invalid operands for {op.text}: {left.text} and {right.text}"
  | .unordered left right => s!"cannot order {left.text} and {right.text}"
  | .exitCode found => s!"exit code {found.text} is not an integer"

end Mismatch

namespace Malformation

/-- What is said about the malformation. -/
def message : Malformation → String
  | .danglingObject id => s!"dangling object #{id}"
  | .unknownBlock id => s!"unknown native block #{id}"
  | .helperArguments helper found =>
    s!"{helper.name} expects {helper.arity} argument(s), got {found}"
  | .stackUnderflow method => s!"stack underflow in '{method}'"
  | .unboundRegion method => s!"unbound region label in '{method}'"
  | .unboundLabel label => s!"unbound label L{label}"
  | .argumentCount method found expected =>
    s!"'{method}' called with {found} argument(s), expects {expected}"
  | .strayEndFinally => "endfinally outside of a finally handler"
  | .handlerReturned => "finally handler did not end with endfinally"
  | .fellOff method => s!"execution fell off the end of '{method}'"
  | .missingArguments method => s!"not enough arguments for '{method}'"
  | .missingHelperArguments helper => s!"not enough arguments for {helper.name}"
  | .noArgument slot => s!"no argument {slot}"
  | .noLocal slot => s!"no local {slot}"

end Malformation

namespace Fault

/-- What is said about the fault. -/
def message : Fault → String
  | .accessViolation object =>
    s!"access violation: unmanaged pointer into unpinned array #{object}"
  | .doubleFree block => s!"native block #{block} freed twice"
  | .useAfterFree block => s!"native block #{block} used after free"
  | .nullReference => "null reference"
  | .divideByZero => "division by zero"
  | .indexOutOfRange index length => s!"index {index.toInt} out of range for length {length}"
  | .outOfBounds offset size =>
    s!"memory access at offset {offset.toInt} outside a block of {size} bytes"
  | .typeMismatch cause => s!"type mismatch: {cause.message}"
  | .invalidProgram cause => s!"invalid program: {cause.message}"
  | .missingMethod name => s!"method '{name}' not found"
  | .stackOverflow limit => s!"call depth limit of {limit} exceeded"
  | .stepLimitExceeded limit => s!"step limit of {limit} exceeded"

end Fault

namespace Crash

/-- What is said about the crash. -/
def message (c : Crash) : String :=
  s!"unhandled fault in '{c.method}' at IL_{Text.hexadecimal4 c.offset}: {c.fault.message}"

end Crash

namespace Failure

/-- What is said about the failure. -/
def message : Failure → String
  | .noEntryPoint => "module has no entry point"
  | .unsupportedEntry method =>
    s!"entry point '{method}' must take no parameters or a single string[]"
  | .crash c => c.message

end Failure

namespace Value

/-- The integer that a value is. -/
def asInt : Value → Except Fault Int64
  | .int v => pure v
  | v => throw (.typeMismatch (.notInteger v))

/-- The object that a value refers to. -/
def asObject : Value → Except Fault Nat
  | .object id => pure id
  | .null => throw .nullReference
  | v => throw (.typeMismatch (.notObject v))

/-- The pointer that a value is. -/
def asPointer : Value → Except Fault Pointer
  | .pointer p => pure p
  | v => if v.isNull then throw .nullReference else throw (.typeMismatch (.notPointer v))

end Value

end ManagedC
