import ManagedC.CType
import ManagedC.Syntax.Declaration

/-!
# The base type of a declaration

The type specifiers of a declaration name its base type. Their order does not matter, and the words
between them that are no type specifiers do not matter either: only how often each one occurs.
-/

namespace ManagedC

namespace TypeSpecifier

/-- The type that a specifier names all by itself. -/
def namedType? : TypeSpecifier → Option CType
  | .struct tag => some (.struct tag)
  | .typedefName name => some (.named name)
  | _ => none

/-- The arithmetic type that words name together, or `void`. At most one word may give the sign, and
`int` may be said once. -/
def arithmeticType? (specifiers : List TypeSpecifier) : Option PrimitiveType :=
  let ints := specifiers.count .int
  let signeds := specifiers.count .signed
  let unsigneds := specifiers.count .unsigned
  let isUnsigned := 0 < unsigneds
  if 1 < signeds + unsigneds || 1 < ints then none
  else
    match specifiers.count .void, specifiers.count .char, specifiers.count .short,
      specifiers.count .long, specifiers.count .float, specifiers.count .double with
    | 0, 0, 0, 0, 0, 0 => some (if isUnsigned then .unsignedInt else .int)
    | 1, 0, 0, 0, 0, 0 => if ints + signeds + unsigneds = 0 then some .void else none
    | 0, 1, 0, 0, 0, 0 =>
      if ints = 0 then
        some (if 0 < signeds then .signedChar else if isUnsigned then .unsignedChar else .char)
      else none
    | 0, 0, 1, 0, 0, 0 => some (if isUnsigned then .unsignedShort else .short)
    | 0, 0, 0, 1, 0, 0 => some (if isUnsigned then .unsignedLong else .long)
    | 0, 0, 0, 2, 0, 0 => some (if isUnsigned then .unsignedLong else .long)
    | 0, 0, 0, 0, 1, 0 => if ints + signeds + unsigneds = 0 then some .float else none
    | 0, 0, 0, 0, 0, 1 => if ints + signeds + unsigneds = 0 then some .double else none
    | 0, 0, 0, 1, 0, 1 => if ints + signeds + unsigneds = 0 then some .double else none
    | _, _, _, _, _, _ => none

end TypeSpecifier

namespace DeclarationSpecifier

/-- The type specifier that a specifier is. -/
def type? : DeclarationSpecifier → Option TypeSpecifier
  | .type t => some t
  | _ => none

/-- The storage class that a specifier is. -/
def storage? : DeclarationSpecifier → Option StorageClass
  | .storage s => some s
  | _ => none

/-- Why specifiers name no type. -/
inductive Fault where
  /-- There is no type specifier. -/
  | noType
  /-- The type specifiers do not go together. -/
  | invalid
  deriving DecidableEq, Inhabited

/-- The base type that specifiers name: a tag or a name stands alone, and words combine. -/
def baseType (specifiers : List DeclarationSpecifier) : Except Fault CType :=
  let types := specifiers.filterMap type?
  match types.filterMap TypeSpecifier.namedType? with
  | [] =>
    if types.isEmpty then throw .noType
    else
      match TypeSpecifier.arithmeticType? types with
      | some kind => pure (.primitive kind)
      | none => throw .invalid
  | [named] => if types.length = 1 then pure named else throw .invalid
  | _ => throw .invalid

end DeclarationSpecifier

end ManagedC
