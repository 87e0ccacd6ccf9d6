/-!
# Operators

Binary operators come in three groups that are compiled in different ways: arithmetic ones combine
two numbers, comparisons answer with a truth value, and logical ones evaluate their right operand
only if they have to.
-/

namespace ManagedC

/-- An operator that combines two numbers. -/
inductive ArithmeticOp where
  /-- Sum. -/
  | add
  /-- Difference. -/
  | sub
  /-- Product. -/
  | mul
  /-- Quotient. -/
  | div
  /-- Remainder. -/
  | mod
  /-- Bitwise conjunction. -/
  | bitAnd
  /-- Bitwise disjunction. -/
  | bitOr
  /-- Bitwise exclusive disjunction. -/
  | bitXor
  /-- Shift to the left. -/
  | shiftLeft
  /-- Shift to the right. -/
  | shiftRight
  deriving DecidableEq, Inhabited

/-- An operator that compares two values. -/
inductive ComparisonOp where
  /-- Equal. -/
  | eq
  /-- Not equal. -/
  | ne
  /-- Less. -/
  | lt
  /-- Greater. -/
  | gt
  /-- Less or equal. -/
  | le
  /-- Greater or equal. -/
  | ge
  deriving DecidableEq, Inhabited

/-- An operator that may leave its right operand unevaluated. -/
inductive LogicalOp where
  /-- Conjunction. -/
  | and
  /-- Disjunction. -/
  | or
  deriving DecidableEq, Inhabited

/-- A binary operator. -/
inductive BinaryOp where
  /-- One that combines two numbers. -/
  | arithmetic (op : ArithmeticOp)
  /-- One that compares. -/
  | comparison (op : ComparisonOp)
  /-- One that may stop early. -/
  | logical (op : LogicalOp)
  deriving DecidableEq, Inhabited

/-- A unary operator. -/
inductive UnaryOp where
  /-- The negative of a number. -/
  | negate
  /-- One for zero, zero for anything else. -/
  | logicalNot
  /-- Every bit flipped. -/
  | bitNot
  /-- What a pointer points to. -/
  | dereference
  deriving DecidableEq, Inhabited

namespace BinaryOp

/-- All binary operators. -/
def all : List BinaryOp :=
  [.arithmetic .add, .arithmetic .sub, .arithmetic .mul, .arithmetic .div, .arithmetic .mod,
    .arithmetic .bitAnd, .arithmetic .bitOr, .arithmetic .bitXor, .arithmetic .shiftLeft,
    .arithmetic .shiftRight, .logical .and, .logical .or, .comparison .eq, .comparison .ne,
    .comparison .lt, .comparison .gt, .comparison .le, .comparison .ge]

/-- The spelling in source text. -/
def symbol : BinaryOp → String
  | .arithmetic .add => "+"
  | .arithmetic .sub => "-"
  | .arithmetic .mul => "*"
  | .arithmetic .div => "/"
  | .arithmetic .mod => "%"
  | .arithmetic .bitAnd => "&"
  | .arithmetic .bitOr => "|"
  | .arithmetic .bitXor => "^"
  | .arithmetic .shiftLeft => "<<"
  | .arithmetic .shiftRight => ">>"
  | .logical .and => "&&"
  | .logical .or => "||"
  | .comparison .eq => "=="
  | .comparison .ne => "!="
  | .comparison .lt => "<"
  | .comparison .gt => ">"
  | .comparison .le => "<="
  | .comparison .ge => ">="

/-- The name in documents. -/
def name : BinaryOp → String
  | .arithmetic .add => "Add"
  | .arithmetic .sub => "Sub"
  | .arithmetic .mul => "Mul"
  | .arithmetic .div => "Div"
  | .arithmetic .mod => "Mod"
  | .arithmetic .bitAnd => "BitAnd"
  | .arithmetic .bitOr => "BitOr"
  | .arithmetic .bitXor => "BitXor"
  | .arithmetic .shiftLeft => "LeftShift"
  | .arithmetic .shiftRight => "RightShift"
  | .logical .and => "LogicalAnd"
  | .logical .or => "LogicalOr"
  | .comparison .eq => "Equal"
  | .comparison .ne => "NotEqual"
  | .comparison .lt => "Less"
  | .comparison .gt => "Greater"
  | .comparison .le => "LessEqual"
  | .comparison .ge => "GreaterEqual"

/-- Whether the operator compares. -/
def isComparison : BinaryOp → Bool
  | .comparison _ => true
  | _ => false

end BinaryOp

namespace UnaryOp

/-- All unary operators. -/
def all : List UnaryOp := [.negate, .logicalNot, .bitNot, .dereference]

/-- The spelling in source text. -/
def symbol : UnaryOp → String
  | .negate => "-"
  | .logicalNot => "!"
  | .bitNot => "~"
  | .dereference => "*"

/-- The name in documents. -/
def name : UnaryOp → String
  | .negate => "Minus"
  | .logicalNot => "LogicalNot"
  | .bitNot => "BitNot"
  | .dereference => "Dereference"

end UnaryOp

end ManagedC
