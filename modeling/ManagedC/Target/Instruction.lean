import ManagedC.Target.Type

/-!
# Instructions of the target machine

The machine is a stack machine: instructions take their operands off an evaluation stack and push
their results. Jumps name labels; which instruction a label stands for is kept beside the code.
-/

namespace ManagedC

/-- The number of a label. -/
abbrev Label := Nat

/-- A callable unit as a call names it. -/
structure MethodRef where
  /-- The name. -/
  name : String
  /-- The type of the result. -/
  returnType : TargetType
  /-- The types of the parameters. -/
  parameterTypes : List TargetType
  deriving DecidableEq, Inhabited

/-- A service of the machine that is called like a method. -/
inductive Helper where
  /-- Copies an array of strings into native memory. -/
  | argsToArgv
  /-- Gives that native memory back. -/
  | freeArgv
  /-- Copies the start of one array over the start of another. -/
  | arrayCopy
  deriving DecidableEq, Inhabited

/-- An operation on the two topmost values. -/
inductive BinaryInstr where
  /-- Sum. -/
  | add
  /-- Difference. -/
  | sub
  /-- Product. -/
  | mul
  /-- Quotient. -/
  | div
  /-- Remainder. -/
  | rem
  /-- Bitwise conjunction. -/
  | and
  /-- Bitwise disjunction. -/
  | or
  /-- Bitwise exclusive disjunction. -/
  | xor
  /-- Shift to the left. -/
  | shl
  /-- Shift to the right. -/
  | shr
  deriving DecidableEq, Inhabited

/-- A comparison of the two topmost values; it pushes one or zero. -/
inductive CompareInstr where
  /-- Equal. -/
  | ceq
  /-- Greater. -/
  | cgt
  /-- Less. -/
  | clt
  deriving DecidableEq, Inhabited

/-- An instruction. -/
inductive Instruction where
  /-- Nothing. -/
  | nop
  /-- Push an argument. -/
  | loadArgument (slot : UInt16)
  /-- Pop into an argument. -/
  | storeArgument (slot : UInt16)
  /-- Push a local variable. -/
  | loadLocal (slot : UInt16)
  /-- Pop into a local variable. -/
  | storeLocal (slot : UInt16)
  /-- Push a number written with 32 bits. -/
  | constInt32 (value : Int32)
  /-- Push a number written with 64 bits. -/
  | constInt64 (value : Int64)
  /-- Push the null reference. -/
  | loadNull
  /-- Push the topmost value once more. -/
  | dup
  /-- Drop the topmost value. -/
  | pop
  /-- Combine the two topmost values. -/
  | binary (op : BinaryInstr)
  /-- The negative of the topmost value. -/
  | neg
  /-- Every bit of the topmost value flipped. -/
  | not
  /-- Compare the two topmost values. -/
  | compare (op : CompareInstr)
  /-- Jump. -/
  | branch (target : Label)
  /-- Jump if the topmost value counts as the given truth value. -/
  | branchIf (condition : Bool) (target : Label)
  /-- Call a method. -/
  | call (method : MethodRef)
  /-- Call a service of the machine. -/
  | callHelper (helper : Helper)
  /-- Return from the method. -/
  | ret
  /-- Cut the topmost value down to 32 bits. -/
  | convInt32
  /-- Extend the topmost value to 64 bits. -/
  | convInt64
  /-- Turn the topmost value into a number as wide as an address. -/
  | convNative
  /-- Turn the topmost value into an unmanaged address. -/
  | convAddress
  /-- Make an array. -/
  | newArray (element : TargetType)
  /-- The length of an array. -/
  | arrayLength
  /-- A reference to an element of an array. -/
  | elementAddress (element : TargetType)
  /-- Load from an address. -/
  | load (type : TargetType)
  /-- Store to an address. -/
  | store (type : TargetType)
  /-- Jump out of a protected region, running the handlers of the regions that are left. -/
  | leave (target : Label)
  /-- The end of a handler. -/
  | endFinally
  deriving DecidableEq, Inhabited

namespace MethodRef

/-- Result type, name and parameter types. -/
def text (m : MethodRef) : String :=
  m.returnType.text ++ " " ++ m.name ++ "("
    ++ ", ".intercalate (m.parameterTypes.map TargetType.text) ++ ")"

/-- The document of a reference. -/
def toJson (m : MethodRef) : Json :=
  .record [("name", .ofText m.name), ("return_type", m.returnType.toJson),
    ("parameter_types", .arr (m.parameterTypes.map TargetType.toJson))]

/-- The reference that a document describes. -/
def ofJson? : Nat → Json → Option MethodRef
  | 0, _ => none
  | levels + 1, j =>
    match Json.fields? [Json.field "name", Json.field "return_type",
        Json.field "parameter_types"] j with
    | some [some name, some returnType, some parameterTypes] => do
      return ⟨← name.text?, ← TargetType.ofJson? levels returnType,
        ← Json.list? TargetType.ofJson? levels parameterTypes⟩
    | _ => none

end MethodRef

namespace Helper

/-- All services. -/
def all : List Helper := [.argsToArgv, .freeArgv, .arrayCopy]

/-- The name. -/
def name : Helper → String
  | .argsToArgv => "ArgsToArgv"
  | .freeArgv => "FreeArgv"
  | .arrayCopy => "ArrayCopy"

/-- How many values a call takes. -/
def arity : Helper → Nat
  | .argsToArgv => 1
  | .freeArgv => 1
  | .arrayCopy => 3

/-- Whether a call pushes a value. -/
def returnsValue : Helper → Bool
  | .argsToArgv => true
  | .freeArgv => false
  | .arrayCopy => false

/-- The signature in assembler text. -/
def text : Helper → String
  | .argsToArgv => "uint8*[] [runtime]RuntimeHelpers::ArgsToArgv(string[])"
  | .freeArgv => "void [runtime]RuntimeHelpers::FreeArgv(uint8*[])"
  | .arrayCopy =>
    "void [runtime]RuntimeHelpers::ArrayCopy(class System.Array, class System.Array, int32)"

/-- The service that a document names. -/
def ofJson? : Nat → Json → Option Helper := Json.named? name all

end Helper

namespace BinaryInstr

/-- All operations. -/
def all : List BinaryInstr := [.add, .sub, .mul, .div, .rem, .and, .or, .xor, .shl, .shr]

/-- The spelling in assembler text. -/
def text : BinaryInstr → String
  | .add => "add"
  | .sub => "sub"
  | .mul => "mul"
  | .div => "div"
  | .rem => "rem"
  | .and => "and"
  | .or => "or"
  | .xor => "xor"
  | .shl => "shl"
  | .shr => "shr"

end BinaryInstr

namespace Instruction

/-- Whether control never goes on to the next instruction. -/
def isTerminator : Instruction → Bool
  | .ret | .branch _ | .leave _ | .endFinally => true
  | _ => false

/-- The label that an instruction jumps to. -/
def target? : Instruction → Option Label
  | .branch target => some target
  | .branchIf _ target => some target
  | .leave target => some target
  | _ => none

/-- The instruction in assembler text. -/
def text : Instruction → String
  | .nop => "nop"
  | .loadArgument slot => s!"ldarg {slot}"
  | .storeArgument slot => s!"starg {slot}"
  | .loadLocal slot => s!"ldloc {slot}"
  | .storeLocal slot => s!"stloc {slot}"
  | .constInt32 value => s!"ldc.i4 {value.toInt}"
  | .constInt64 value => s!"ldc.i8 {value.toInt}"
  | .loadNull => "ldnull"
  | .dup => "dup"
  | .pop => "pop"
  | .binary op => op.text
  | .neg => "neg"
  | .not => "not"
  | .compare .ceq => "ceq"
  | .compare .cgt => "cgt"
  | .compare .clt => "clt"
  | .branch target => s!"br L{target}"
  | .branchIf true target => s!"brtrue L{target}"
  | .branchIf false target => s!"brfalse L{target}"
  | .call method => s!"call {method.text}"
  | .callHelper helper => s!"call {helper.text}"
  | .ret => "ret"
  | .convInt32 => "conv.i4"
  | .convInt64 => "conv.i8"
  | .convNative => "conv.i"
  | .convAddress => "conv.u"
  | .newArray element => s!"newarr {element.text}"
  | .arrayLength => "ldlen"
  | .elementAddress element => s!"ldelema {element.text}"
  | .load type => s!"ldind.{type.accessSuffix false}"
  | .store type => s!"stind.{type.accessSuffix true}"
  | .leave target => s!"leave L{target}"
  | .endFinally => "endfinally"

/-- The instructions without an operand. -/
def plain : List Instruction :=
  [.nop, .loadNull, .dup, .pop, .neg, .not, .compare .ceq, .compare .cgt, .compare .clt, .ret,
    .convInt32, .convInt64, .convNative, .convAddress, .arrayLength, .endFinally] ++
    BinaryInstr.all.map .binary

/-- The name in documents. -/
def name : Instruction → String
  | .nop => "Nop"
  | .loadArgument _ => "Ldarg"
  | .storeArgument _ => "Starg"
  | .loadLocal _ => "Ldloc"
  | .storeLocal _ => "Stloc"
  | .constInt32 _ => "LdcI4"
  | .constInt64 _ => "LdcI8"
  | .loadNull => "Ldnull"
  | .dup => "Dup"
  | .pop => "Pop"
  | .binary .add => "Add"
  | .binary .sub => "Sub"
  | .binary .mul => "Mul"
  | .binary .div => "Div"
  | .binary .rem => "Rem"
  | .binary .and => "And"
  | .binary .or => "Or"
  | .binary .xor => "Xor"
  | .binary .shl => "Shl"
  | .binary .shr => "Shr"
  | .neg => "Neg"
  | .not => "Not"
  | .compare .ceq => "Ceq"
  | .compare .cgt => "Cgt"
  | .compare .clt => "Clt"
  | .branch _ => "Br"
  | .branchIf true _ => "Brtrue"
  | .branchIf false _ => "Brfalse"
  | .call _ => "Call"
  | .callHelper _ => "CallRuntime"
  | .ret => "Ret"
  | .convInt32 => "ConvI4"
  | .convInt64 => "ConvI8"
  | .convNative => "ConvI"
  | .convAddress => "ConvU"
  | .newArray _ => "Newarr"
  | .arrayLength => "Ldlen"
  | .elementAddress _ => "Ldelema"
  | .load _ => "Ldind"
  | .store _ => "Stind"
  | .leave _ => "Leave"
  | .endFinally => "Endfinally"

/-- The operand in documents, if there is one. -/
def operand? : Instruction → Option Json
  | .loadArgument slot => some (.ofNat slot.toNat)
  | .storeArgument slot => some (.ofNat slot.toNat)
  | .loadLocal slot => some (.ofNat slot.toNat)
  | .storeLocal slot => some (.ofNat slot.toNat)
  | .constInt32 value => some (.int value.toInt)
  | .constInt64 value => some (.int value.toInt)
  | .branch target => some (.ofNat target)
  | .branchIf _ target => some (.ofNat target)
  | .leave target => some (.ofNat target)
  | .call method => some method.toJson
  | .callHelper helper => some (.ofText helper.name)
  | .newArray element => some element.toJson
  | .elementAddress element => some element.toJson
  | .load type => some type.toJson
  | .store type => some type.toJson
  | _ => none

/-- The document of an instruction. -/
def toJson (i : Instruction) : Json :=
  match i.operand? with
  | none => .ofText i.name
  | some operand => .variant i.name operand

/-- A slot number in a document. -/
def slot? (j : Json) : Option UInt16 := (Json.natBelow? (2 ^ 16) j).map UInt16.ofNat

/-- A label in a document. -/
def label? : Json → Option Label := Json.natBelow? (2 ^ 32)

/-- The instruction with a name and an operand that is read with the levels left. -/
def ofOperand? (levels : Nat) (name : String) (operand : Json) : Option Instruction :=
  match name with
  | "Ldarg" => (slot? operand).map .loadArgument
  | "Starg" => (slot? operand).map .storeArgument
  | "Ldloc" => (slot? operand).map .loadLocal
  | "Stloc" => (slot? operand).map .storeLocal
  | "LdcI4" => operand.int32?.map .constInt32
  | "LdcI8" => operand.int64?.map .constInt64
  | "Br" => (label? operand).map .branch
  | "Brtrue" => (label? operand).map (.branchIf true)
  | "Brfalse" => (label? operand).map (.branchIf false)
  | "Leave" => (label? operand).map .leave
  | "Call" => (MethodRef.ofJson? levels operand).map .call
  | "CallRuntime" => (Helper.ofJson? levels operand).map .callHelper
  | "Newarr" => (TargetType.ofJson? levels operand).map .newArray
  | "Ldelema" => (TargetType.ofJson? levels operand).map .elementAddress
  | "Ldind" => (TargetType.ofJson? levels operand).map .load
  | "Stind" => (TargetType.ofJson? levels operand).map .store
  | _ => none

/-- The instruction that a document describes. -/
def ofJson? (levels : Nat) (j : Json) : Option Instruction :=
  match Json.named? name plain levels j with
  | some i => some i
  | none =>
    match Json.variant? j, levels with
    | some (name, some operand), levels + 1 => ofOperand? levels name operand
    | _, _ => none

end Instruction

end ManagedC
