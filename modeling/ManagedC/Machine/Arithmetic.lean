import ManagedC.Machine.Fault

/-!
# Arithmetic of the machine

Integers are computed with modulo `2 ^ 64` and with a sign. Pointers can be moved by integers, and
two pointers into the same place have a difference and an order.
-/

namespace ManagedC

namespace BinaryInstr

/-- The operation on two integers; nothing is divided by zero. A shift looks at the six lowest bits
of its distance only. -/
def onInts (op : BinaryInstr) (a b : Int64) : Except Fault Int64 :=
  match op with
  | .add => pure (a + b)
  | .sub => pure (a - b)
  | .mul => pure (a * b)
  | .div => if b = 0 then throw .divideByZero else pure (a / b)
  | .rem => if b = 0 then throw .divideByZero else pure (a % b)
  | .and => pure (a &&& b)
  | .or => pure (a ||| b)
  | .xor => pure (a ^^^ b)
  | .shl => pure (a <<< b)
  | .shr => pure (a >>> b)

/-- The operation on two values. -/
def apply (op : BinaryInstr) (left right : Value) : Except Fault Value :=
  match op, left, right with
  | _, .int a, .int b => .int <$> op.onInts a b
  | .add, .pointer p, .int bytes => pure (.pointer (p.move bytes))
  | .add, .int bytes, .pointer p => pure (.pointer (p.move bytes))
  | .sub, .pointer p, .int bytes => pure (.pointer (p.move (-bytes)))
  | .sub, .pointer p, .pointer q =>
    if p.place = q.place then pure (.int (p.offset - q.offset))
    else throw (.typeMismatch (.operands op left right))
  | _, _, _ => throw (.typeMismatch (.operands op left right))

end BinaryInstr

namespace CompareInstr

/-- The comparison of two integers. -/
def onInts (op : CompareInstr) (a b : Int64) : Bool :=
  match op with
  | .ceq => a == b
  | .cgt => b < a
  | .clt => a < b

/-- The comparison of two values that have no order. -/
def unordered (op : CompareInstr) (left right : Value) : Except Fault Bool :=
  match op with
  | .ceq => pure ((left.isNull && right.isNull) || left.equals right)
  | _ => throw (.typeMismatch (.unordered left right))

/-- The comparison of two values. -/
def apply (op : CompareInstr) (left right : Value) : Except Fault Bool :=
  match left, right with
  | .int a, .int b => pure (op.onInts a b)
  | .pointer p, .pointer q =>
    if p.place = q.place then pure (op.onInts p.offset q.offset) else op.unordered left right
  | _, _ => op.unordered left right

end CompareInstr

end ManagedC
