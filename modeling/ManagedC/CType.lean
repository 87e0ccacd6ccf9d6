import ManagedC.Json.Record

/-!
# Types of the source language

The type of a declared thing once its declaration has been read. Sizes are those of the machine the
programs are compiled for; a type without a size has no values of its own, or none that the
compiler knows how to lay out.
-/

namespace ManagedC

/-- An arithmetic type, or `void`. -/
inductive PrimitiveType where
  /-- No value. -/
  | void
  /-- A character. -/
  | char
  /-- A character with negative values. -/
  | signedChar
  /-- A character without negative values. -/
  | unsignedChar
  /-- A short integer. -/
  | short
  /-- A short integer without negative values. -/
  | unsignedShort
  /-- An integer. -/
  | int
  /-- An integer without negative values. -/
  | unsignedInt
  /-- A long integer. -/
  | long
  /-- A long integer without negative values. -/
  | unsignedLong
  /-- A floating-point number. -/
  | float
  /-- A floating-point number of double precision. -/
  | double
  deriving DecidableEq, Inhabited

/-- A type. -/
inductive CType where
  /-- An arithmetic type, or `void`. -/
  | primitive (kind : PrimitiveType)
  /-- A pointer to values of a type. -/
  | pointer (target : CType)
  /-- An array, perhaps of a known size. -/
  | array (element : CType) (size : Option UInt64)
  /-- A structure or union with a tag. -/
  | struct (tag : String)
  /-- A name that stands for a type nobody has looked up. -/
  | named (name : String)
  deriving DecidableEq, Inhabited

namespace PrimitiveType

/-- All primitive types. -/
def all : List PrimitiveType :=
  [.void, .char, .signedChar, .unsignedChar, .short, .unsignedShort, .int, .unsignedInt, .long,
    .unsignedLong, .float, .double]

/-- The name in documents. -/
def name : PrimitiveType → String
  | .void => "Void"
  | .char => "Char"
  | .signedChar => "SignedChar"
  | .unsignedChar => "UnsignedChar"
  | .short => "Short"
  | .unsignedShort => "UnsignedShort"
  | .int => "Int"
  | .unsignedInt => "UnsignedInt"
  | .long => "Long"
  | .unsignedLong => "UnsignedLong"
  | .float => "Float"
  | .double => "Double"

/-- The spelling in source text. -/
def text : PrimitiveType → String
  | .void => "void"
  | .char => "char"
  | .signedChar => "signed char"
  | .unsignedChar => "unsigned char"
  | .short => "short"
  | .unsignedShort => "unsigned short"
  | .int => "int"
  | .unsignedInt => "unsigned int"
  | .long => "long"
  | .unsignedLong => "unsigned long"
  | .float => "float"
  | .double => "double"

/-- The size of a value in bytes. -/
def size? : PrimitiveType → Option Nat
  | .void => none
  | .char | .signedChar | .unsignedChar => some 1
  | .short | .unsignedShort => some 2
  | .int | .unsignedInt | .float => some 4
  | .long | .unsignedLong | .double => some 8

/-- Whether the values are floating-point numbers. -/
def isFloating : PrimitiveType → Bool
  | .float | .double => true
  | _ => false

/-- Whether the values are integers. -/
def isInteger : PrimitiveType → Bool
  | .void | .float | .double => false
  | _ => true

end PrimitiveType

namespace CType

/-- The type `void`. -/
def void : CType := .primitive .void

/-- The type `int`. -/
def int : CType := .primitive .int

/-- The type `long`. -/
def long : CType := .primitive .long

/-- The size of a pointer in bytes. -/
def pointerSize : Nat := 8

/-- Whether the type is `void`. -/
def isVoid : CType → Bool
  | .primitive .void => true
  | _ => false

/-- Whether the type is a pointer. -/
def isPointer : CType → Bool
  | .pointer _ => true
  | _ => false

/-- Whether the values are integers. -/
def isInteger : CType → Bool
  | .primitive kind => kind.isInteger
  | _ => false

/-- Whether the values are floating-point numbers. -/
def isFloating : CType → Bool
  | .primitive kind => kind.isFloating
  | _ => false

/-- The type of what a pointer points to, or of the elements of an array. -/
def target? : CType → Option CType
  | .pointer target => some target
  | .array element _ => some element
  | _ => none

/-- The size of a value in bytes. -/
def size? : CType → Option Nat
  | .primitive kind => kind.size?
  | .pointer _ => some pointerSize
  | .array element (some count) => element.size?.map (· * count.toNat)
  | .array _ none => none
  | .struct _ => none
  | .named _ => none

/-- The type of a parameter declared with this type: an array is passed as a pointer to its
elements. -/
def asParameter : CType → CType
  | .array element _ => .pointer element
  | type => type

/-- The text that messages show for a type. -/
def text : CType → String
  | .primitive kind => kind.text
  | .pointer target => target.text ++ "*"
  | .array element (some count) => s!"{element.text}[{count}]"
  | .array element none => element.text ++ "[]"
  | .struct tag => "struct " ++ tag
  | .named name => name

/-- The document of a type. -/
def toJson : CType → Json
  | .primitive kind => .variant "Primitive" (.ofText kind.name)
  | .pointer target => .variant "Pointer" target.toJson
  | .array element size =>
    .variant "Array" (.record [("element_type", element.toJson),
      ("size", (size.map fun n => Json.ofNat n.toNat).getD .null)])
  | .struct tag => .variant "Struct" (.ofText tag)
  | .named name => .variant "Named" (.ofText name)

/-- The type that a document describes. -/
def ofJson? : Nat → Json → Option CType
  | 0, _ => none
  | levels + 1, j =>
    match Json.variant? j with
    | some ("Primitive", some payload) =>
      (Json.named? PrimitiveType.name PrimitiveType.all levels payload).map .primitive
    | some ("Pointer", some payload) => (ofJson? levels payload).map .pointer
    | some ("Array", some payload) =>
      match levels with
      | 0 => none
      | levels + 1 =>
        match Json.fields? [Json.field "element_type", Json.field "size"] payload with
        | some [some element, size] => do
          return .array (← ofJson? levels element)
            (← Json.optional? (fun n => (Json.index? n).map UInt64.ofNat) size)
        | _ => none
    | some ("Struct", some payload) => payload.text?.map .struct
    | some ("Named", some payload) => payload.text?.map .named
    | _ => none

end CType

end ManagedC
