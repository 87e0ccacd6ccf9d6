import ManagedC.Compile.Error
import ManagedC.Syntax.Statement

/-!
# Bodies of functions

A body is a statement whose declarations have been read and whose unsupported parts are gone.
Whether every way through a body returns can be seen from its shape, as far as choices go; loops are
never taken to return.
-/

namespace ManagedC

/-- A declared local variable. -/
structure LocalDeclaration where
  /-- The name. -/
  name : String
  /-- The type. -/
  type : CType
  /-- The initial value, if one is given. -/
  initializer : Option Expression
  /-- Where the declarator begins. -/
  location : Location
  deriving Inhabited

/-- The body of a function, or a part of one. -/
inductive Body where
  /-- A block. -/
  | block (parts : List Body)
  /-- An expression whose value is dropped. -/
  | expression (expression : Expression)
  /-- Declarations of local variables. -/
  | declare (locals : List LocalDeclaration)
  /-- A choice. -/
  | conditional (condition : Expression) (thenBranch : Body) (elseBranch : Option Body)
  /-- A loop that tests before its body. -/
  | whileLoop (condition : Expression) (body : Body)
  /-- A loop that tests after its body. -/
  | doWhileLoop (body : Body) (condition : Expression)
  /-- A loop with a start, a test and an update, each of which may be missing. -/
  | forLoop (start : Option Body) (condition update : Option Expression) (body : Body)
  /-- The end of the innermost loop. -/
  | exitLoop (location : Location)
  /-- The end of this round of the innermost loop. -/
  | nextRound (location : Location)
  /-- The end of the function, perhaps with a value. -/
  | ret (value : Option Expression) (location : Location)
  /-- Nothing. -/
  | empty
  deriving Inhabited

namespace Body

mutual

/-- Whether every way through a body ends in a return, as far as its shape shows. -/
def returns : Body → Bool
  | .ret _ _ => true
  | .block parts => anyReturns parts
  | .conditional _ thenBranch (some elseBranch) => thenBranch.returns && elseBranch.returns
  | _ => false

/-- Whether one of several bodies returns. -/
def anyReturns : List Body → Bool
  | [] => false
  | part :: parts => part.returns || anyReturns parts

end

end Body

namespace Declaration

/-- Fails because of something that is left for later. -/
def notImplemented {α : Type} (function : String) (feature : MissingFeature)
    (location : Location) : Except CompileError α :=
  throw (.refused (.notImplemented function feature) location)

/-- Whether a storage class keeps a thing out of its block. -/
def isForeign : StorageClass → Bool
  | .static | .external | .typedef => true
  | .automatic | .register => false

/-- The local variable that one declarator of a declaration in a function declares. -/
def localOf (function : String) (specifiers : List DeclarationSpecifier) (d : InitDeclarator) :
    Except CompileError LocalDeclaration := do
  let location := d.declarator.location
  let declared ← (d.declarator.resolve specifiers).mapError .declaration
  if d.declarator.direct.isFunction then
    notImplemented function .blockScopeFunctions location
  if (declared.storage.map isForeign).getD false then
    notImplemented function .localStorageClasses location
  match declared.name with
  | none => throw (.misused .unnamedLocal location)
  | some name => return ⟨name, declared.type, d.initializer, location⟩

/-- The local variables that a declaration in a function declares. -/
def locals (function : String) (d : Declaration) : Except CompileError (List LocalDeclaration) :=
  d.declarators.mapM (localOf function d.specifiers)

end Declaration

namespace Statement

mutual

/-- The body that a statement of a function is. -/
def toBody (function : String) : Statement → Except CompileError Body
  | .expression _ e => return .expression e
  | .compound _ statements => return .block (← listToBody function statements)
  | .declaration _ d => return .declare (← d.locals function)
  | .conditional _ condition thenBranch none => do
    return .conditional condition (← thenBranch.toBody function) none
  | .conditional _ condition thenBranch (some elseBranch) => do
    let thenBranch ← thenBranch.toBody function
    return .conditional condition thenBranch (some (← elseBranch.toBody function))
  | .whileLoop _ condition body => return .whileLoop condition (← body.toBody function)
  | .doWhileLoop _ body condition => return .doWhileLoop (← body.toBody function) condition
  | .forLoop _ none condition update body => do
    return .forLoop none condition update (← body.toBody function)
  | .forLoop _ (some start) condition update body => do
    let start ← start.toBody function
    return .forLoop (some start) condition update (← body.toBody function)
  | .switch span _ _ => Declaration.notImplemented function .switchStatements span.start
  | .labeled span _ _ => Declaration.notImplemented function .labelsAndGoto span.start
  | .goto span _ => Declaration.notImplemented function .labelsAndGoto span.start
  | .exitLoop span => return .exitLoop span.start
  | .nextRound span => return .nextRound span.start
  | .ret span value => return .ret value span.start
  | .empty _ => return .empty

/-- The bodies that statements of a function are. -/
def listToBody (function : String) : List Statement → Except CompileError (List Body)
  | [] => return []
  | s :: ss => do
    let body ← s.toBody function
    return body :: (← listToBody function ss)

end

end Statement

end ManagedC
