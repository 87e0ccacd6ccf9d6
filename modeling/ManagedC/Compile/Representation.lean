import ManagedC.Compile.Error

/-!
# How types are represented on the target machine

Numbers map to numbers of the same size and pointers to unmanaged pointers. A pointer to nothing in
particular is carried as a pointer to bytes. Arrays, structures and unexpanded names have no
representation.
-/

namespace ManagedC

namespace PrimitiveType

/-- The type of the target machine that holds the values. -/
def target : PrimitiveType → TargetType
  | .void => .void
  | .char => .uint8
  | .signedChar => .int8
  | .unsignedChar => .uint8
  | .short => .int16
  | .unsignedShort => .uint16
  | .int => .int32
  | .unsignedInt => .uint32
  | .long => .int64
  | .unsignedLong => .uint64
  | .float => .float32
  | .double => .float64

end PrimitiveType

namespace CType

/-- The type of the target machine that holds the values, or the part that has none. -/
def target : CType → Except CType TargetType
  | .primitive kind => pure kind.target
  | .pointer (.primitive .void) => pure (.pointer .uint8)
  | .pointer type => .pointer <$> type.target
  | type => throw type

/-- The type of the target machine that holds the values of a type used in a function. -/
def represent (type : CType) (function : String) (location : Location) :
    Except CompileError TargetType :=
  type.target.mapError fun part => .refused (.invalidType function part) location

end CType

namespace TargetType

/-- The type of one native string. -/
def nativeString : TargetType := .pointer .uint8

/-- The type of the native strings that a program is started with. -/
def nativeStrings : TargetType := .array nativeString

/-- The type of the managed strings that the host starts a program with. -/
def hostArguments : TargetType := .array .string

/-- Whether a parameter of this type can take the native strings that a program is started with. The
sign of a byte makes no difference. -/
def acceptsArguments : TargetType → Bool
  | .pointer (.pointer .uint8) => true
  | .pointer (.pointer .int8) => true
  | _ => false

end TargetType

end ManagedC
