import ManagedC.Compile.Scope

/-!
# Code for operators and conversions

The functions here emit code that works on values already on the evaluation stack and tell the type
of the value that the code leaves there. Integers are computed with as `int` or as `long`; pointers
move in steps of the size of what they point to.
-/

namespace ManagedC

namespace CType

/-- Whether the type is an integer of 64 bits. -/
def isLong (type : CType) : Bool := type.isInteger && type.size? == some 8

/-- The type in which two integers are combined. -/
def arithmeticResult (left right : CType) : CType :=
  if left.isLong || right.isLong then .long else .int

/-- Whether values of the type can be compared with a pointer. -/
def isComparable (type : CType) : Bool := type.isPointer || type.isInteger

end CType

/-- The instruction of an arithmetic operator. -/
def ArithmeticOp.instr : ArithmeticOp → BinaryInstr
  | .add => .add
  | .sub => .sub
  | .mul => .mul
  | .div => .div
  | .mod => .rem
  | .bitAnd => .and
  | .bitOr => .or
  | .bitXor => .xor
  | .shiftLeft => .shl
  | .shiftRight => .shr

/-- The comparison of a comparison operator, and whether its answer is to be turned around. -/
def ComparisonOp.instr : ComparisonOp → CompareInstr × Bool
  | .eq => (.ceq, false)
  | .ne => (.ceq, true)
  | .lt => (.clt, false)
  | .gt => (.cgt, false)
  | .le => (.cgt, true)
  | .ge => (.clt, true)

namespace Emit

/-- Turns a truth value around. -/
def negation : Emit Unit := do
  instr (.constInt32 0)
  instr (.compare .ceq)

/-- Compares the two topmost values. -/
def comparison (op : ComparisonOp) : Emit Unit := do
  instr (.compare op.instr.1)
  if op.instr.2 then negation

/-- Runs code on the value below the topmost one, which is kept in a variable of the given type
meanwhile. -/
def underTop (type : TargetType) (code : Emit Unit) : Emit Unit := do
  let temporary ← addTemporary type
  instr (.storeLocal temporary)
  code
  instr (.loadLocal temporary)

/-- The size of the step of a pointer. -/
def stepSize (pointer : CType) (location : Location) : Emit Int32 := do
  match pointer.target?.bind CType.size? with
  | some size =>
    if size < 2 ^ 31 then return Int32.ofNat size else badOperands (.noStep pointer) location
  | none => badOperands (.noStep pointer) location

/-- Pushes a size as a native number. -/
def nativeSize (size : Int32) : Emit Unit := do
  instr (.constInt32 size)
  instr .convNative

/-- Turns a number of steps into a number of bytes. -/
def scale (size : Int32) : Emit Unit := do
  instr .convNative
  if size ≠ 1 then
    nativeSize size
    instr (.binary .mul)

/-- Converts the topmost value from one type to another. -/
def coerce (source target : CType) (location : Location) : Emit Unit := do
  if source = target then return
  match source, target with
  | .pointer _, .pointer _ => return
  | _, .pointer _ =>
    if source.isInteger then instr .convNative
    else badOperands (.notConvertible source target) location
  | _, _ =>
    if source.isInteger && target.isInteger then
      if target.isLong && !source.isLong then instr .convInt64
      else if !target.isLong && source.isLong then instr .convInt32
    else badOperands (.notConvertible source target) location

/-- Brings two integers on top of the stack to the type in which they are combined. -/
def unifyIntegers (left right : CType) : Emit Unit := do
  if (CType.arithmeticResult left right).isLong then
    if !right.isLong then instr .convInt64
    if !left.isLong then underTop .int64 (instr .convInt64)

/-- Combines a pointer with a number of steps on top of it. -/
def pointerThenSteps (op : BinaryInstr) (pointer : CType) (location : Location) : Emit CType := do
  scale (← stepSize pointer location)
  instr (.binary op)
  return pointer

/-- Combines a number of steps with a pointer on top of it. -/
def stepsThenPointer (pointer : CType) (location : Location) : Emit CType := do
  let size ← stepSize pointer location
  let type ← represent pointer location
  underTop type (scale size)
  instr (.binary .add)
  return pointer

/-- The number of steps between two pointers. -/
def pointerDifference (pointer : CType) (location : Location) : Emit CType := do
  let size ← stepSize pointer location
  instr (.binary .sub)
  if size ≠ 1 then
    nativeSize size
    instr (.binary .div)
  instr .convInt64
  return .long

/-- Combines the two topmost values, of which at least one is a pointer, by an arithmetic
operator. -/
def pointerArithmetic (op : ArithmeticOp) (left right : CType) (location : Location) :
    Emit CType :=
  match op with
  | .add =>
    if left.isPointer && right.isInteger then pointerThenSteps .add left location
    else if left.isInteger && right.isPointer then stepsThenPointer right location
    else badOperands (.binary (.arithmetic .add) left right) location
  | .sub =>
    if left.isPointer && right.isInteger then pointerThenSteps .sub left location
    else if left.isPointer && right.isPointer then pointerDifference left location
    else badOperands (.binary (.arithmetic .sub) left right) location
  | op => badOperands (.binary (.arithmetic op) left right) location

/-- Compares the two topmost values, of which at least one is a pointer. -/
def pointerComparison (op : ComparisonOp) (left right : CType) (location : Location) :
    Emit CType := do
  if left.isComparable && right.isComparable then
    comparison op
    return .int
  else badOperands (.notComparable left right) location

/-- Combines the two topmost integers. -/
def integerOperation (op : BinaryOp) (left right : CType) : Emit CType := do
  unifyIntegers left right
  match op with
  | .comparison op =>
    comparison op
    return .int
  | .arithmetic op =>
    instr (.binary op.instr)
    return CType.arithmeticResult left right
  | .logical op => throw (.internal (.logicalArithmetic op))

/-- Combines the two topmost values by a binary operator. -/
def applyBinary (op : BinaryOp) (left right : CType) (location : Location) : Emit CType := do
  if left.isFloating || right.isFloating then missing .floatingArithmetic location
  else if left.isInteger && right.isInteger then integerOperation op left right
  else
    match op with
    | .comparison op =>
      if left.isPointer || right.isPointer then pointerComparison op left right location
      else badOperands (.binary (.comparison op) left right) location
    | .arithmetic op => pointerArithmetic op left right location
    | .logical op => badOperands (.binary (.logical op) left right) location

/-- Evaluates an operand and checks that it can serve as a truth value. -/
def condition (location : Location) (operand : Emit CType) : Emit Unit := do
  let type ← operand
  if type.isFloating then missing .floatingConditions location
  if !type.isInteger && !type.isPointer then badOperands (.notScalar type) location

/-- Evaluates conditions from left to right until one decides. -/
def shortCircuit (op : LogicalOp) (left right : Emit Unit) : Emit CType := do
  let decided ← newLabel
  let stop ← newLabel
  let (decisive, value) : Bool × Int32 := match op with
    | .and => (false, 0)
    | .or => (true, 1)
  left
  instr (.branchIf decisive decided)
  right
  instr (.branchIf decisive decided)
  instr (.constInt32 (1 - value))
  instr (.branch stop)
  mark decided
  instr (.constInt32 value)
  mark stop
  return .int

/-- Evaluates an operand that must be a pointer. The answer is the type that it points to. -/
def address (location : Location) (pointer : Emit CType) : Emit CType := do
  match ← pointer with
  | .pointer target =>
    if target.isVoid then badOperands .voidTarget location else return target
  | type => badOperands (.notPointer type) location

/-- Evaluates the two parts of a subscript to the address of an element. The answer is the type of
the element. -/
def elementAddress (location : Location) (array index : Emit CType) : Emit CType := do
  let left ← array
  let right ← index
  if (left.isPointer && right.isInteger) || (left.isInteger && right.isPointer) then
    match ← applyBinary (.arithmetic .add) left right location with
    | .pointer element =>
      if element.isVoid then badOperands (.noElement (.pointer element)) location
      else return element
    | type => badOperands (.noElement type) location
  else badOperands (.notSubscript left right) location

/-- Loads from the address on top of the stack. -/
def loadThrough (type : CType) (location : Location) : Emit CType := do
  instr (.load (← represent type location))
  return type

/-- Applies a unary operator to a value. -/
def applyUnary (op : UnaryOp) (location operandLocation : Location) (operand : Emit CType) :
    Emit CType := do
  match op with
  | .dereference => loadThrough (← address location operand) location
  | .logicalNot =>
    condition operandLocation operand
    negation
    return .int
  | .negate => arithmetic .neg
  | .bitNot => arithmetic .not
where
  /-- Applies an instruction to an integer. -/
  arithmetic (i : Instruction) : Emit CType := do
    let type ← operand
    if !type.isInteger then badOperands (.unary op type) location
    instr i
    return CType.arithmeticResult type type

/-- Assigns to a variable; the assigned value stays on the stack. -/
def assignVariable (op : Option BinaryOp) (name : String) (location : Location)
    (value : Emit CType) : Emit CType := do
  let v ← lookupVariable name location
  let type ← match op with
    | none => value
    | some op => do
      instr v.load
      applyBinary op v.type (← value) location
  coerce type v.type location
  instr .dup
  instr v.store
  return v.type

/-- Assigns to what an address leads to; the assigned value stays on the stack. -/
def assignThrough (op : Option BinaryOp) (target : Emit CType) (location : Location)
    (value : Emit CType) : Emit CType := do
  let element ← target
  let stored ← represent element location
  let type ← match op with
    | none => value
    | some op => do
      instr .dup
      instr (.load stored)
      applyBinary op element (← value) location
  coerce type element location
  let temporary ← addTemporary stored
  instr .dup
  instr (.storeLocal temporary)
  instr (.store stored)
  instr (.loadLocal temporary)
  return element

/-- Calls a function by its name, with arguments that are evaluated once the types of the parameters
are known. -/
def callFunction (name : String) (count : Nat) (arguments : List CType → Emit Unit)
    (location : Location) : Emit CType := do
  match (← get).findFunction? name with
  | none => refuse (.undefinedFunction name) location
  | some signature =>
    let parameters ← match signature.parameters with
      | some parameters => pure parameters
      | none => if count = 0 then pure [] else missing (.unknownParameters name) location
    if parameters.length ≠ count then
      refuse (.argumentCount name parameters.length count) location
    arguments parameters
    instr (.call signature.method)
    return signature.returnType

end Emit

end ManagedC
