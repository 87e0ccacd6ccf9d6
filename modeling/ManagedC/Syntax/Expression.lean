import ManagedC.Source.Span
import ManagedC.Syntax.Operator

/-!
# Expressions

Every expression carries the stretch of source text that it was read from.
-/

namespace ManagedC

/-- An expression. -/
inductive Expression where
  /-- An integer written out. -/
  | intLiteral (span : Span) (value : Int64)
  /-- The name of a variable, or of a function that is called. -/
  | identifier (span : Span) (name : String)
  /-- A binary operator between two operands. -/
  | binary (span : Span) (op : BinaryOp) (left right : Expression)
  /-- A unary operator before its operand. -/
  | unary (span : Span) (op : UnaryOp) (operand : Expression)
  /-- An assignment; with an operator, the value is first combined with what the target holds. -/
  | assignment (span : Span) (op : Option BinaryOp) (target value : Expression)
  /-- A call. -/
  | call (span : Span) (function : Expression) (arguments : List Expression)
  /-- A subscript. -/
  | subscript (span : Span) (array index : Expression)
  deriving Inhabited

namespace Expression

/-- The source text of an expression. -/
def span : Expression → Span
  | .intLiteral span _ => span
  | .identifier span _ => span
  | .binary span _ _ _ => span
  | .unary span _ _ => span
  | .assignment span _ _ _ => span
  | .call span _ _ => span
  | .subscript span _ _ => span

/-- Where an expression begins, which is the place that errors about it name. -/
def location (e : Expression) : Location := e.span.start

end Expression

end ManagedC
