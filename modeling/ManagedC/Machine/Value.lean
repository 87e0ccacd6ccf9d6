import ManagedC.Double.Decimal
import ManagedC.Target.Instruction

/-!
# Values of the machine

What the evaluation stack, the arguments, the local variables and the elements of arrays hold. All
integers are kept with 64 bits. A pointer is kept as what it points into and a number of bytes, so
that no address is ever made up.
-/

namespace ManagedC

/-- What a pointer points into. -/
inductive Place where
  /-- A block of native memory. -/
  | native (block : Nat)
  /-- A managed array. -/
  | array (object : Nat)
  deriving DecidableEq, Inhabited

/-- A pointer. -/
structure Pointer where
  /-- What it points into. -/
  place : Place
  /-- How many bytes from the start. -/
  offset : Int64
  /-- Whether it is a managed reference, which keeps its target in place. -/
  managed : Bool
  deriving DecidableEq, Inhabited

/-- A value. -/
inductive Value where
  /-- The null reference. -/
  | null
  /-- An integer. -/
  | int (value : Int64)
  /-- A floating-point number. -/
  | float (value : Double)
  /-- A reference to a managed object. -/
  | object (id : Nat)
  /-- A pointer. -/
  | pointer (pointer : Pointer)
  deriving DecidableEq, Inhabited

namespace Pointer

/-- The unmanaged pointer to the same place. -/
def unmanaged (p : Pointer) : Pointer := { p with managed := false }

/-- The pointer some bytes further on. -/
def move (p : Pointer) (bytes : Int64) : Pointer := { p with offset := p.offset + bytes }

/-- The text of a pointer. -/
def text (p : Pointer) : String :=
  match p.place with
  | .native block => s!"native#{block}+{p.offset.toInt}"
  | .array object => (if p.managed then "&" else "*") ++ s!"array#{object}+{p.offset.toInt}"

end Pointer

/-- An integer cut down to the width of a type, and extended again by the rule of the type. -/
def TargetType.narrow (type : TargetType) (v : Int64) : Int64 :=
  match type with
  | .int8 => Int64.ofInt (v.toInt.bmod (2 ^ 8))
  | .uint8 => Int64.ofInt (v.toInt % 2 ^ 8)
  | .int16 => Int64.ofInt (v.toInt.bmod (2 ^ 16))
  | .uint16 => Int64.ofInt (v.toInt % 2 ^ 16)
  | .int32 => Int64.ofInt (v.toInt.bmod (2 ^ 32))
  | .uint32 => Int64.ofInt (v.toInt % 2 ^ 32)
  | _ => v

namespace Value

/-- The value of a variable or an array element of a type before anything is stored in it. -/
def zeroOf (type : TargetType) : Value :=
  if type.isInteger then .int 0 else if type.isFloating then .float .zero else .null

/-- Whether a value counts as the null pointer. -/
def isNull : Value → Bool
  | .null => true
  | .int v => v == 0
  | _ => false

/-- Whether a value counts as true. -/
def isTrue : Value → Bool
  | .null => false
  | .int v => v != 0
  | .float x => !x.isZero
  | .object _ => true
  | .pointer _ => true

/-- The value after a store to a variable of a type. -/
def narrow (type : TargetType) : Value → Value
  | .int v => .int (type.narrow v)
  | v => v

/-- Whether two values are equal: numbers by their value, references by what they refer to. -/
def equals : Value → Value → Bool
  | .float x, .float y => x.equals y
  | a, b => a == b

/-- The text of a value. -/
def text : Value → String
  | .null => "null"
  | .int v => toString v.toInt
  | .float x => x.text
  | .object id => s!"object#{id}"
  | .pointer p => p.text

end Value

end ManagedC
