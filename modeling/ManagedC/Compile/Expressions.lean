import ManagedC.Compile.Operators

/-!
# Code for expressions

The code of an expression leaves one value on the evaluation stack, or none if the expression is a
call of a function without a result; `Expression.compile` tells the type of that value.
-/

namespace ManagedC.Expression

open Emit

mutual

/-- Emits the code of an expression. -/
def compile : Expression → Emit CType
  | .intLiteral _ value =>
    if value.toInt32.toInt64 = value then do
      instr (.constInt32 value.toInt32)
      return .int
    else do
      instr (.constInt64 value)
      return .long
  | .identifier span name => do
    let v ← lookupVariable name span.start
    instr v.load
    return v.type
  | .binary _ (.logical op) left right =>
    shortCircuit op (condition left.location left.compile) (condition right.location right.compile)
  | .binary span op left right => do
    let leftType ← left.compile
    let rightType ← right.compile
    applyBinary op leftType rightType span.start
  | .unary span op operand => applyUnary op span.start operand.location operand.compile
  | .assignment span op (.identifier _ name) value =>
    assignVariable op name span.start value.compile
  | .assignment span op (.subscript _ array index) value =>
    assignThrough op (elementAddress span.start array.compile index.compile) span.start
      value.compile
  | .assignment span op (.unary _ .dereference pointer) value =>
    assignThrough op (address span.start pointer.compile) span.start value.compile
  | .assignment span _ _ _ => refuse .notAssignable span.start
  | .call span (.identifier _ name) arguments =>
    callFunction name arguments.length (compileArguments arguments) span.start
  | .call span _ _ => missing .functionPointers span.start
  | .subscript span array index => do
    loadThrough (← elementAddress span.start array.compile index.compile) span.start

/-- Emits the code of arguments, each converted to the type of its parameter. -/
def compileArguments : List Expression → List CType → Emit Unit
  | argument :: arguments, parameter :: parameters => do
    coerce (← argument.compile) parameter argument.location
    compileArguments arguments parameters
  | _, _ => return

end

/-- Emits the code of an expression that serves as a truth value. -/
def compileCondition (e : Expression) : Emit Unit := condition e.location e.compile

/-- Emits the code of an expression and drops its value. -/
def compileEffect (e : Expression) : Emit Unit := do
  let type ← e.compile
  if !type.isVoid then instr .pop

end ManagedC.Expression
