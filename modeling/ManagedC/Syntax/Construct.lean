import ManagedC.Syntax.Statement

/-!
# Syntax trees built by hand

Short names for the trees that a program would rather write than read from a file. None of them has
a place in source text.
-/

namespace ManagedC.Construct

/-! ## Specifiers -/

/-- A word of the base type. -/
def specifier (t : TypeSpecifier) : DeclarationSpecifier := .type t

/-- The word `int`. -/
def intSpecifier : DeclarationSpecifier := specifier .int

/-- The word `char`. -/
def charSpecifier : DeclarationSpecifier := specifier .char

/-- The word `void`. -/
def voidSpecifier : DeclarationSpecifier := specifier .void

/-- The word `const`. -/
def constSpecifier : DeclarationSpecifier := .qualifier .const

/-! ## Declarators -/

/-- A direct declarator after a number of pointer marks without qualifiers. -/
def pointersTo (levels : Nat) (direct : DirectDeclarator) : Declarator :=
  .mk (List.replicate levels []) direct .unknown

/-- A name after a number of pointer marks. -/
def pointerDeclarator (levels : Nat) (name : String) : Declarator :=
  pointersTo levels (.identifier name)

/-- A name alone. -/
def nameDeclarator (name : String) : Declarator := pointerDeclarator 0 name

/-- A name with a function suffix. -/
def functionDeclarator (name : String) (parameters : Option ParameterList) : Declarator :=
  pointersTo 0 (.function (.identifier name) parameters)

/-- A function suffix without a name. -/
def unnamedFunctionDeclarator (parameters : Option ParameterList) : Declarator :=
  pointersTo 0 (.function .unnamed parameters)

/-! ## Parameters -/

/-- A parameter declaration. -/
def parameter (specifiers : List DeclarationSpecifier) (declarator : Option Declarator) :
    ParameterDeclaration :=
  .mk specifiers declarator

/-- A parameter with a name after a number of pointer marks. -/
def namedParameter (s : DeclarationSpecifier) (levels : Nat) (name : String) :
    ParameterDeclaration :=
  parameter [s] (some (pointerDeclarator levels name))

/-- A parameter without a name; without pointer marks it has no declarator at all. -/
def unnamedParameter (s : DeclarationSpecifier) (levels : Nat) : ParameterDeclaration :=
  parameter [s] (if 0 < levels then some (pointersTo levels .unnamed) else none)

/-- A parameter list. -/
def parameterList (parameters : List ParameterDeclaration) (hasEllipsis : Bool) : ParameterList :=
  .mk parameters hasEllipsis

/-- The list that says there are no parameters. -/
def voidParameters : ParameterList := parameterList [parameter [voidSpecifier] none] false

/-- The number of arguments and the arguments of a program. -/
def commandLineParameters : ParameterList :=
  parameterList [namedParameter intSpecifier 0 "argc", namedParameter charSpecifier 2 "argv"] false

/-! ## Functions -/

/-- A function definition. -/
def function (specifiers : List DeclarationSpecifier) (declarator : Declarator)
    (body : Statement) : FunctionDefinition :=
  ⟨specifiers, declarator, [], body, .unknown⟩

/-- A function that returns an `int`. -/
def intFunction (name : String) (parameters : Option ParameterList) (body : List Statement) :
    FunctionDefinition :=
  function [intSpecifier] (functionDeclarator name parameters) (.compound .unknown body)

/-! ## Statements -/

/-- A block. -/
def block (statements : List Statement) : Statement := .compound .unknown statements

/-- A return. -/
def ret (value : Option Expression) : Statement := .ret .unknown value

/-- An expression whose value is dropped. -/
def evaluate (e : Expression) : Statement := .expression .unknown e

/-- A choice. -/
def conditional (condition : Expression) (thenBranch : Statement) (elseBranch : Option Statement) :
    Statement :=
  .conditional .unknown condition thenBranch elseBranch

/-- A loop that tests before its body. -/
def whileLoop (condition : Expression) (body : Statement) : Statement :=
  .whileLoop .unknown condition body

/-- The end of the innermost loop. -/
def exitLoop : Statement := .exitLoop .unknown

/-- A jump to a label. -/
def goto (label : String) : Statement := .goto .unknown label

/-- A declaration of one variable after a number of pointer marks. -/
def declare (s : DeclarationSpecifier) (levels : Nat) (name : String)
    (initializer : Option Expression) : Statement :=
  .declaration .unknown ⟨[s], [⟨pointerDeclarator levels name, initializer⟩], .unknown⟩

/-! ## Expressions -/

/-- An integer. -/
def int (value : Int64) : Expression := .intLiteral .unknown value

/-- A name. -/
def name (name : String) : Expression := .identifier .unknown name

/-- A binary operator. -/
def binary (op : BinaryOp) (left right : Expression) : Expression := .binary .unknown op left right

/-- A unary operator. -/
def unary (op : UnaryOp) (operand : Expression) : Expression := .unary .unknown op operand

/-- An assignment, with an operator if the value is combined with the target first. -/
def assign (op : Option BinaryOp) (target value : Expression) : Expression :=
  .assignment .unknown op target value

/-- A call of a function by its name. -/
def call (function : String) (arguments : List Expression) : Expression :=
  .call .unknown (name function) arguments

/-- A subscript. -/
def subscript (array index : Expression) : Expression := .subscript .unknown array index

end ManagedC.Construct
