import ManagedC.Json.Record

/-!
# Types of the target machine

The types that the machine stores and passes around. A reference into a managed object is told apart
from an unmanaged pointer: the machine keeps the target of the former alive, and the latter is good
only while its target is pinned.
-/

namespace ManagedC

/-- A type of the target machine. -/
inductive TargetType where
  /-- No value. -/
  | void
  /-- A signed byte. -/
  | int8
  /-- A byte. -/
  | uint8
  /-- A signed number of 16 bits. -/
  | int16
  /-- A number of 16 bits. -/
  | uint16
  /-- A signed number of 32 bits. -/
  | int32
  /-- A number of 32 bits. -/
  | uint32
  /-- A signed number of 64 bits. -/
  | int64
  /-- A number of 64 bits. -/
  | uint64
  /-- A floating-point number of 32 bits. -/
  | float32
  /-- A floating-point number of 64 bits. -/
  | float64
  /-- A number as wide as an address. -/
  | nativeInt
  /-- A managed string. -/
  | string
  /-- An unmanaged pointer. -/
  | pointer (target : TargetType)
  /-- A managed reference. -/
  | byRef (target : TargetType)
  /-- A managed array. -/
  | array (element : TargetType)
  deriving DecidableEq, Inhabited

namespace TargetType

/-- The types without a part. -/
def atoms : List TargetType :=
  [.void, .int8, .uint8, .int16, .uint16, .int32, .uint32, .int64, .uint64, .float32, .float64,
    .nativeInt, .string]

/-- The name in documents. -/
def name : TargetType → String
  | .void => "Void"
  | .int8 => "Int8"
  | .uint8 => "UInt8"
  | .int16 => "Int16"
  | .uint16 => "UInt16"
  | .int32 => "Int32"
  | .uint32 => "UInt32"
  | .int64 => "Int64"
  | .uint64 => "UInt64"
  | .float32 => "Float32"
  | .float64 => "Float64"
  | .nativeInt => "NativeInt"
  | .string => "String"
  | .pointer _ => "Pointer"
  | .byRef _ => "ByRef"
  | .array _ => "SzArray"

/-- The spelling in assembler text. -/
def text : TargetType → String
  | .void => "void"
  | .int8 => "int8"
  | .uint8 => "uint8"
  | .int16 => "int16"
  | .uint16 => "uint16"
  | .int32 => "int32"
  | .uint32 => "uint32"
  | .int64 => "int64"
  | .uint64 => "uint64"
  | .float32 => "float32"
  | .float64 => "float64"
  | .nativeInt => "native int"
  | .string => "string"
  | .pointer target => target.text ++ "*"
  | .byRef target => target.text ++ "&"
  | .array element => element.text ++ "[]"

/-- The size of a value in memory, in bytes. -/
def size? : TargetType → Option Nat
  | .void => none
  | .int8 | .uint8 => some 1
  | .int16 | .uint16 => some 2
  | .int32 | .uint32 | .float32 => some 4
  | _ => some 8

/-- Whether the values are integers. -/
def isInteger : TargetType → Bool
  | .int8 | .uint8 | .int16 | .uint16 | .int32 | .uint32 | .int64 | .uint64 | .nativeInt => true
  | _ => false

/-- Whether the values are floating-point numbers. -/
def isFloating : TargetType → Bool
  | .float32 | .float64 => true
  | _ => false

/-- Whether the values refer to managed objects. -/
def isReference : TargetType → Bool
  | .string | .array _ => true
  | _ => false

/-- The type of what a pointer or reference leads to, or of the elements of an array. -/
def element? : TargetType → Option TargetType
  | .pointer target => some target
  | .byRef target => some target
  | .array element => some element
  | _ => none

/-- The ending of an instruction that loads from or stores to an address. A store does not care
about the sign of what it stores. -/
def accessSuffix (isStore : Bool) : TargetType → String
  | .int8 => "i1"
  | .uint8 => if isStore then "i1" else "u1"
  | .int16 => "i2"
  | .uint16 => if isStore then "i2" else "u2"
  | .int32 => "i4"
  | .uint32 => if isStore then "i4" else "u4"
  | .int64 | .uint64 => "i8"
  | .float32 => "r4"
  | .float64 => "r8"
  | .nativeInt | .pointer _ | .byRef _ => "i"
  | .string | .array _ | .void => "ref"

/-- The document of a type. -/
def toJson : TargetType → Json
  | .pointer target => .variant "Pointer" target.toJson
  | .byRef target => .variant "ByRef" target.toJson
  | .array element => .variant "SzArray" element.toJson
  | type => .ofText type.name

/-- The type that a document describes. -/
def ofJson? : Nat → Json → Option TargetType
  | 0, j => Json.named? name atoms 0 j
  | levels + 1, j =>
    match Json.variant? j with
    | some ("Pointer", some payload) => (ofJson? levels payload).map .pointer
    | some ("ByRef", some payload) => (ofJson? levels payload).map .byRef
    | some ("SzArray", some payload) => (ofJson? levels payload).map .array
    | _ => Json.named? name atoms (levels + 1) j

end TargetType

end ManagedC
