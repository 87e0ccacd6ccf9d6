import ManagedC.CType.Specifiers
import ManagedC.Source.Report
import ManagedC.Text

/-!
# What a declarator declares

A declarator is read inside out: the pointer marks apply to the base type first, the suffixes apply
to the result, the outermost suffix first, and the name stands in the middle. A function suffix ends
the reading: the type so far is what the function returns.
-/

namespace ManagedC

/-- A parameter of a function. -/
structure Parameter where
  /-- The type, an array already turned into a pointer. -/
  type : CType
  /-- The name; a parameter without one takes its place but cannot be referred to. -/
  name : Option String
  deriving DecidableEq, Inhabited

/-- What is known about the parameters of a function that is declared with a parameter list. -/
structure ParameterInfo where
  /-- The parameters in order. -/
  parameters : List Parameter
  /-- Whether the list says explicitly that there are none. -/
  isVoid : Bool
  /-- Whether more arguments may follow. -/
  isVariadic : Bool
  deriving DecidableEq, Inhabited

/-- What a declarator declares. -/
structure Declared where
  /-- The type, or the type that the declared function returns. -/
  type : CType
  /-- Whether the thing itself is constant. -/
  isConst : Bool
  /-- The name, if there is one. -/
  name : Option String
  /-- The parameters, if there is a function suffix with a list of them. -/
  parameters : Option ParameterInfo
  /-- The storage class, if one is given. -/
  storage : Option StorageClass
  deriving DecidableEq, Inhabited

/-- Why a declaration declares nothing. -/
inductive DeclarationFault where
  /-- The specifiers name no type. -/
  | noTypeSpecifier
  /-- The type specifiers among these do not go together. -/
  | invalidSpecifiers (specifiers : List DeclarationSpecifier)
  /-- A function suffix is applied to an array or function suffix. -/
  | nestedFunction
  /-- A parameter is declared with a function suffix. -/
  | functionParameter
  /-- A parameter has type `void` where that does not mean an empty list. -/
  | voidParameter
  deriving DecidableEq, Inhabited

namespace TypeSpecifier

/-- How a type specifier is shown in messages about it. -/
def shown : TypeSpecifier → String
  | .struct tag => s!"Struct({Text.quoted tag})"
  | .typedefName name => s!"TypedefName({Text.quoted name})"
  | specifier => specifier.name

end TypeSpecifier

namespace DeclarationSpecifier

/-- How a specifier is shown in messages about it. -/
def shown : DeclarationSpecifier → String
  | .storage s => s!"StorageClass({s.name})"
  | .type t => s!"TypeSpecifier({t.shown})"
  | .qualifier q => s!"TypeQualifier({q.name})"
  | .inlined => "Inline"

/-- Whether the specifiers have a qualifier. -/
def hasQualifier (q : TypeQualifier) (specifiers : List DeclarationSpecifier) : Bool :=
  specifiers.contains (.qualifier q)

/-- The first storage class among specifiers. -/
def firstStorage? (specifiers : List DeclarationSpecifier) : Option StorageClass :=
  specifiers.findSome? storage?

end DeclarationSpecifier

namespace DeclarationFault

/-- What the fault says. -/
def message : DeclarationFault → String
  | .noTypeSpecifier => "declaration has no type specifier"
  | .invalidSpecifiers specifiers =>
    "invalid combination of type specifiers: ["
      ++ ", ".intercalate (specifiers.map DeclarationSpecifier.shown) ++ "]"
  | .nestedFunction => "function declarators nested inside array or function declarators"
  | .functionParameter => "function-typed parameters"
  | .voidParameter => "'void' must be the only parameter and unnamed"

/-- The kind of trouble. -/
def category : DeclarationFault → ReportCategory
  | .noTypeSpecifier => .semantic
  | .invalidSpecifiers _ => .semantic
  | .nestedFunction => .notImplemented
  | .functionParameter => .notImplemented
  | .voidParameter => .semantic

end DeclarationFault

/-- A fault in a declaration and where it is. -/
structure DeclarationError where
  /-- The fault. -/
  fault : DeclarationFault
  /-- The place. -/
  location : Location
  deriving DecidableEq, Inhabited

namespace DeclarationError

/-- The error as it is reported. -/
def report (e : DeclarationError) : Report := .located e.fault.category e.location e.fault.message

end DeclarationError

namespace ParameterInfo

/-- The explicitly empty list. -/
def void : ParameterInfo := ⟨[], true, false⟩

end ParameterInfo

/-- The base type that specifiers at a place name. -/
def DeclarationSpecifier.resolve (specifiers : List DeclarationSpecifier) (location : Location) :
    Except DeclarationError CType :=
  match baseType specifiers with
  | .ok base => pure base
  | .error .noType => throw ⟨.noTypeSpecifier, location⟩
  | .error .invalid => throw ⟨.invalidSpecifiers specifiers, location⟩

namespace ParameterDeclaration

/-- Whether a declaration can be the word `void` in a list without parameters: it derives no type
and gives no name. -/
def isUnderived : ParameterDeclaration → Bool
  | .mk _ none => true
  | .mk _ (some declarator) => declarator.pointers.isEmpty && declarator.direct.isUnnamed

/-- The words before the declarator. -/
def specifiers : ParameterDeclaration → List DeclarationSpecifier
  | .mk specifiers _ => specifiers

end ParameterDeclaration

namespace ParameterList

/-- Whether a list at a place says explicitly that there are no parameters. -/
def isVoid (location : Location) : ParameterList → Except DeclarationError Bool
  | .mk [only] false =>
    if only.isUnderived then
      return (← DeclarationSpecifier.resolve only.specifiers location).isVoid
    else return false
  | _ => return false

end ParameterList

namespace Declarator

/-- Whether the declared thing itself is constant: the last pointer mark decides, or the specifiers
if there is no pointer mark. -/
def isConst (specifiers : List DeclarationSpecifier) (declarator : Declarator) : Bool :=
  match declarator.pointers.getLast? with
  | some qualifiers => qualifiers.contains .const
  | none => DeclarationSpecifier.hasQualifier .const specifiers

end Declarator

mutual

/-- What a declarator declares after the given specifiers. -/
def Declarator.resolve (specifiers : List DeclarationSpecifier) :
    Declarator → Except DeclarationError Declared
  | .mk pointers direct span => do
    let base ← DeclarationSpecifier.resolve specifiers span.start
    let (type, name, parameters) ←
      direct.derive span.start (pointers.foldl (fun type _ => .pointer type) base)
    return ⟨type, Declarator.isConst specifiers (.mk pointers direct span), name, parameters,
      DeclarationSpecifier.firstStorage? specifiers⟩

/-- The type, name and parameters that a direct declarator makes of a type. -/
def DirectDeclarator.derive (location : Location) : DirectDeclarator → CType →
    Except DeclarationError (CType × Option String × Option ParameterInfo)
  | .identifier name, type => return (type, some name, none)
  | .unnamed, type => return (type, none, none)
  | .array inner size, type => inner.derive location (.array type size)
  | .function inner parameters, type => do
    let name ← match inner with
      | .identifier name => pure (some name)
      | .unnamed => pure none
      | _ => throw ⟨.nestedFunction, location⟩
    match parameters with
    | none => return (type, name, none)
    | some list => return (type, name, some (← list.resolve location))

/-- The parameters that a list at a place declares. -/
def ParameterList.resolve (location : Location) :
    ParameterList → Except DeclarationError ParameterInfo
  | .mk parameters hasEllipsis => do
    if ← ParameterList.isVoid location (.mk parameters hasEllipsis) then return .void
    else return ⟨← ParameterDeclaration.resolveAll location parameters, false, hasEllipsis⟩

/-- The parameters that declarations in a list at a place declare. -/
def ParameterDeclaration.resolveAll (location : Location) :
    List ParameterDeclaration → Except DeclarationError (List Parameter)
  | [] => return []
  | p :: ps => do
    let parameter ← p.resolve location
    if parameter.type.isVoid then throw ⟨.voidParameter, location⟩
    return parameter :: (← ParameterDeclaration.resolveAll location ps)

/-- The parameter that a declaration in a list at a place declares. -/
def ParameterDeclaration.resolve (location : Location) :
    ParameterDeclaration → Except DeclarationError Parameter
  | .mk specifiers none => return ⟨← DeclarationSpecifier.resolve specifiers location, none⟩
  | .mk specifiers (some declarator) => do
    let declared ← declarator.resolve specifiers
    if declared.parameters.isSome then throw ⟨.functionParameter, declarator.location⟩
    return ⟨declared.type.asParameter, declared.name⟩

end

namespace Parameter

/-- The document of a parameter. -/
def toJson (p : Parameter) : Json :=
  .record [("ty", p.type.toJson), ("name", .ofText? p.name)]

/-- The parameter that a document describes. -/
def ofJson? : Nat → Json → Option Parameter
  | 0, _ => none
  | levels + 1, j =>
    match Json.fields? [Json.field "ty", Json.field "name"] j with
    | some [some type, name] => do
      return ⟨← CType.ofJson? levels type, ← Json.optional? Json.text? name⟩
    | _ => none

end Parameter

namespace ParameterInfo

/-- The document of what is known about parameters. -/
def toJson (info : ParameterInfo) : Json :=
  .record [("parameters", .arr (info.parameters.map Parameter.toJson)),
    ("is_void", .bool info.isVoid), ("is_variadic", .bool info.isVariadic)]

/-- What a document says about parameters. -/
def ofJson? : Nat → Json → Option ParameterInfo
  | 0, _ => none
  | levels + 1, j =>
    match Json.fields? [Json.field "parameters", Json.field "is_void", Json.field "is_variadic"]
        j with
    | some [some parameters, some isVoid, some isVariadic] => do
      return ⟨← Json.list? Parameter.ofJson? levels parameters, ← isVoid.bool?,
        ← isVariadic.bool?⟩
    | _ => none

end ParameterInfo

end ManagedC
