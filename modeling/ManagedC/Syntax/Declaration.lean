import ManagedC.Syntax.Expression

/-!
# Declarations

A declaration is a list of specifiers, which name a base type, followed by declarators, each of
which derives a type from it and may give it a name. Both are kept as they are written; what they
mean is settled in `ManagedC.CType.Declared`.
-/

namespace ManagedC

/-- How long a declared thing lives and who sees it. -/
inductive StorageClass where
  /-- As long as its block. -/
  | automatic
  /-- As long as the program, seen here only. -/
  | static
  /-- Defined elsewhere. -/
  | external
  /-- As long as its block, without an address. -/
  | register
  /-- A name for a type. -/
  | typedef
  deriving DecidableEq, Inhabited

/-- A word that takes part in naming the base type. -/
inductive TypeSpecifier where
  /-- No value. -/
  | void
  /-- A character. -/
  | char
  /-- A short integer. -/
  | short
  /-- An integer. -/
  | int
  /-- A long integer, or a longer floating-point number. -/
  | long
  /-- A floating-point number. -/
  | float
  /-- A floating-point number of double precision. -/
  | double
  /-- With negative values. -/
  | signed
  /-- Without negative values. -/
  | unsigned
  /-- A structure with a tag. -/
  | struct (tag : String)
  /-- A name that stands for a type. -/
  | typedefName (name : String)
  deriving DecidableEq, Inhabited

/-- A restriction on how a thing is used. -/
inductive TypeQualifier where
  /-- It is not written to. -/
  | const
  /-- It may change by itself. -/
  | volatile
  /-- Nothing else points to it. -/
  | restrict
  deriving DecidableEq, Inhabited

/-- A word before the declarators. -/
inductive DeclarationSpecifier where
  /-- A storage class. -/
  | storage (storage : StorageClass)
  /-- A part of the base type. -/
  | type (specifier : TypeSpecifier)
  /-- A restriction. -/
  | qualifier (qualifier : TypeQualifier)
  /-- A hint to expand calls in place. -/
  | inlined
  deriving DecidableEq, Inhabited

mutual

/-- Pointer marks, each with its qualifiers, before a direct declarator. -/
inductive Declarator where
  /-- The pointer marks from the base type outwards, then what they are applied to. -/
  | mk (pointers : List (List TypeQualifier)) (direct : DirectDeclarator) (span : Span)

/-- A name, or nothing, with array and function suffixes. -/
inductive DirectDeclarator where
  /-- The declared name. -/
  | identifier (name : String)
  /-- No name. -/
  | unnamed
  /-- An array suffix, perhaps with a size. -/
  | array (inner : DirectDeclarator) (size : Option UInt64)
  /-- A function suffix; without a list nothing is known about the parameters. -/
  | function (inner : DirectDeclarator) (parameters : Option ParameterList)

/-- What stands between the parentheses of a function suffix. -/
inductive ParameterList where
  /-- Declarations in order, and whether an ellipsis follows. -/
  | mk (parameters : List ParameterDeclaration) (hasEllipsis : Bool)

/-- One declaration in a parameter list. -/
inductive ParameterDeclaration where
  /-- The specifiers, and a declarator if one is written. -/
  | mk (specifiers : List DeclarationSpecifier) (declarator : Option Declarator)

end

instance : Inhabited DirectDeclarator := ⟨.unnamed⟩

instance : Inhabited Declarator := ⟨.mk [] .unnamed .unknown⟩

namespace Declarator

/-- The pointer marks, each with its qualifiers. -/
def pointers : Declarator → List (List TypeQualifier)
  | .mk pointers _ _ => pointers

/-- What the pointer marks are applied to. -/
def direct : Declarator → DirectDeclarator
  | .mk _ direct _ => direct

/-- The source text. -/
def span : Declarator → Span
  | .mk _ _ span => span

/-- Where the declarator begins. -/
def location (d : Declarator) : Location := d.span.start

end Declarator

namespace DirectDeclarator

/-- Whether the outermost suffix is a function suffix. -/
def isFunction : DirectDeclarator → Bool
  | .function _ _ => true
  | _ => false

/-- Whether there is neither a name nor a suffix. -/
def isUnnamed : DirectDeclarator → Bool
  | .unnamed => true
  | _ => false

end DirectDeclarator

/-- A declarator with an initial value. -/
structure InitDeclarator where
  /-- The declarator. -/
  declarator : Declarator
  /-- The initial value, if one is given. -/
  initializer : Option Expression
  deriving Inhabited

/-- A declaration in a block or before the body of an old-style function. -/
structure Declaration where
  /-- The words before the declarators. -/
  specifiers : List DeclarationSpecifier
  /-- The declarators. -/
  declarators : List InitDeclarator
  /-- The source text. -/
  span : Span
  deriving Inhabited

namespace StorageClass

/-- All storage classes. -/
def all : List StorageClass := [.automatic, .static, .external, .register, .typedef]

/-- The name in documents. -/
def name : StorageClass → String
  | .automatic => "Auto"
  | .static => "Static"
  | .external => "Extern"
  | .register => "Register"
  | .typedef => "Typedef"

end StorageClass

namespace TypeQualifier

/-- All qualifiers. -/
def all : List TypeQualifier := [.const, .volatile, .restrict]

/-- The name in documents. -/
def name : TypeQualifier → String
  | .const => "Const"
  | .volatile => "Volatile"
  | .restrict => "Restrict"

end TypeQualifier

namespace TypeSpecifier

/-- The name in documents. -/
def name : TypeSpecifier → String
  | .void => "Void"
  | .char => "Char"
  | .short => "Short"
  | .int => "Int"
  | .long => "Long"
  | .float => "Float"
  | .double => "Double"
  | .signed => "Signed"
  | .unsigned => "Unsigned"
  | .struct _ => "Struct"
  | .typedefName _ => "TypedefName"

/-- The specifiers that are single words. -/
def words : List TypeSpecifier :=
  [.void, .char, .short, .int, .long, .float, .double, .signed, .unsigned]

end TypeSpecifier

end ManagedC
