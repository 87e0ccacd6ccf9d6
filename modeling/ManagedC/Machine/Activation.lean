import ManagedC.Machine.Arithmetic
import ManagedC.Machine.Memory
import ManagedC.Machine.Services
import ManagedC.Target.Module

/-!
# Calls in progress

An `Activation` is one call of a method: its arguments, its local variables, its evaluation stack
and the instruction it is at. While handlers run, it also remembers what comes after them. The
functions here cover all that an instruction can do inside a call; what concerns several calls is in
`ManagedC.Machine.Step`.
-/

namespace ManagedC

/-- What comes after the handlers that are running. -/
inductive Completion where
  /-- Control goes on at an instruction. -/
  | jump (target : Nat)
  /-- The call ends with a crash. -/
  | fail (crash : Crash)
  deriving DecidableEq, Inhabited

/-- Handlers on their way. -/
structure Pending where
  /-- Where the running handler starts. -/
  handlerStart : Nat
  /-- The regions whose handlers run after it. -/
  rest : List Region
  /-- What comes then. -/
  completion : Completion
  deriving DecidableEq, Inhabited

/-- A call in progress. -/
structure Activation where
  /-- The method. -/
  method : Method
  /-- Its protected regions, inner ones first. -/
  regions : List Region
  /-- The arguments. -/
  arguments : Array Value
  /-- The local variables. -/
  locals : Array Value
  /-- The evaluation stack, the topmost value first. -/
  stack : List Value
  /-- The number of the instruction that comes next or is being executed. -/
  pc : Nat
  /-- The handlers on their way, the innermost first. -/
  pending : List Pending
  deriving DecidableEq, Inhabited

namespace Activation

/-- The start of a call of a method, made while `depth` calls are in progress. -/
def enter (method : Method) (arguments : List Value) (depth maxDepth : Nat) :
    Except Fault Activation := do
  if arguments.length ≠ method.parameters.length then
    throw (.invalidProgram
      (.argumentCount method.name arguments.length method.parameters.length))
  if maxDepth ≤ depth then throw (.stackOverflow maxDepth)
  match method.body.handlers.mapM method.body.region? with
  | none => throw (.invalidProgram (.unboundRegion method.name))
  | some regions =>
    return ⟨method, regions, arguments.toArray, method.locals.map fun v => .zeroOf v.type, [], 0,
      []⟩

/-- A crash at the current instruction. -/
def crash (a : Activation) (fault : Fault) : Crash := ⟨a.method.name, a.pc, fault⟩

/-- The instruction that comes next. -/
def instruction? (a : Activation) : Option Instruction := a.method.body.instructions[a.pc]?

/-- The call with control at an instruction. -/
def jump (a : Activation) (pc : Nat) : Activation := { a with pc := pc }

/-- The call with control at the next instruction. -/
def advance (a : Activation) : Activation := a.jump (a.pc + 1)

/-- The call with one more value on the stack. -/
def push (a : Activation) (v : Value) : Activation := { a with stack := v :: a.stack }

/-- The instruction that a label stands for. -/
def target (a : Activation) (label : Label) : Except Fault Nat :=
  match a.method.body.labels.offset? label with
  | some offset => pure offset
  | none => throw (.invalidProgram (.unboundLabel label))

/-- The topmost value and the call without it. -/
def pop (a : Activation) : Except Fault (Value × Activation) :=
  match a.stack with
  | v :: stack => pure (v, { a with stack := stack })
  | [] => throw (.invalidProgram (.stackUnderflow a.method.name))

/-- The topmost values, the topmost last, and the call without them; none if there are too few. -/
def popMany? (a : Activation) (n : Nat) : Option (List Value × Activation) :=
  if a.stack.length < n then none
  else some ((a.stack.take n).reverse, { a with stack := a.stack.drop n })

/-- Pushes the outcome of an operation on the topmost value. -/
def mapTop (a : Activation) (f : Value → Except Fault Value) : Except Fault Activation := do
  let (v, a) ← a.pop
  return a.push (← f v)

/-- Pushes the outcome of an operation on the two topmost values. -/
def mapTop2 (a : Activation) (f : Value → Value → Except Fault Value) :
    Except Fault Activation := do
  let (right, a) ← a.pop
  let (left, a) ← a.pop
  return a.push (← f left right)

/-- Begins the first of some handlers, or goes straight on if there are none. -/
def runHandlers (a : Activation) (regions : List Region) (completion : Completion) :
    Option Activation :=
  match regions with
  | [] => none
  | r :: rest =>
    some { a with
      stack := []
      pc := r.handlerStart
      pending := ⟨r.handlerStart, rest, completion⟩ :: a.pending }

/-- The array that a value points into. -/
def pinTarget? : Value → Option Nat
  | .pointer ⟨.array object, _, _⟩ => some object
  | _ => none

/-- Stores a value in a local variable. A pinned variable lets go of the array that it pointed into
and pins the one that it points into now. -/
def storeLocal (a : Activation) (slot : UInt16) (v : Value) : Access Activation := do
  match a.method.locals[slot.toNat]? with
  | none => throw (.invalidProgram (.noLocal slot))
  | some declared =>
    if declared.pinned then
      if let some object := pinTarget? (a.locals.getD slot.toNat .null) then
        Access.update (·.unpin object)
        Access.count fun s => { s with unpins := s.unpins + 1 }
        Access.log .unpinned
      if let some object := pinTarget? v then
        Access.update (·.pin object)
        Access.count fun s => { s with pins := s.pins + 1 }
        Access.log .pinned
    return { a with locals := a.locals.setIfInBounds slot.toNat (v.narrow declared.type) }

/-- Lets go of the arrays that pinned variables point into. -/
def releasePins (a : Activation) (s : Store) : Store :=
  (a.method.locals.toList.zip a.locals.toList).foldl (fun s (slot, v) =>
    match slot.pinned, pinTarget? v with
    | true, some object =>
      match s.heap.unpin object with
      | .ok heap =>
        ({ s with heap := heap }.count fun c =>
          { c with frameExitUnpins := c.frameExitUnpins + 1 }).log .frameExitUnpinned
      | .error _ => s
    | _, _ => s) s

/-- The end of the call: the machine counts it no more, and it lets go of its pins. -/
def close (a : Activation) (s : Store) : Store := a.releasePins s.closed

/-- The integer that a value is converted to. -/
def toNative (v : Value) : Except Fault Value :=
  match v with
  | .int _ | .pointer _ | .null => pure v
  | .float _ | .object _ => throw (.typeMismatch (.noInteger v))

/-- The unmanaged address that a value is converted to. -/
def toAddress (v : Value) : Except Fault Value :=
  match v with
  | .pointer p => pure (.pointer p.unmanaged)
  | .null => pure (.int 0)
  | .int n => pure (.int n)
  | _ => throw (.typeMismatch (.noAddress v))

/-- A new array of zeros. -/
def makeArray (element : TargetType) (length : Value) : Access Value := do
  let n ← Access.ofExcept length.asInt
  if n < 0 then throw (.indexOutOfRange n 0)
  return .object (← Access.newArray element (Array.replicate n.toInt.toNat (.zeroOf element)))

/-- A managed reference to an element of an array. -/
def elementReference (h : Heap) (element : TargetType) (object : Nat) (index : Int64) :
    Except Fault Value := do
  let (_, elements) ← h.array object
  if index < 0 || elements.size ≤ index.toInt.toNat then
    throw (.indexOutOfRange index elements.size)
  let size ← element.elementSize
  return .pointer ⟨.array object, index * Int64.ofNat size, true⟩

/-- Executes an instruction that stays inside the call. The answer is the call after it. -/
def execute (a : Activation) : Instruction → Access Activation
  | .nop => return a.advance
  | .loadArgument slot => do
    match a.arguments[slot.toNat]? with
    | some v => return (a.push v).advance
    | none => throw (.invalidProgram (.noArgument slot))
  | .storeArgument slot => do
    let (v, a) ← Access.ofExcept a.pop
    match a.method.parameters[slot.toNat]? with
    | some p =>
      return { a with arguments := a.arguments.setIfInBounds slot.toNat (v.narrow p.type) }.advance
    | none => throw (.invalidProgram (.noArgument slot))
  | .loadLocal slot => do
    match a.locals[slot.toNat]? with
    | some v => return (a.push v).advance
    | none => throw (.invalidProgram (.noLocal slot))
  | .storeLocal slot => do
    let (v, a) ← Access.ofExcept a.pop
    return (← a.storeLocal slot v).advance
  | .constInt32 value => return (a.push (.int value.toInt64)).advance
  | .constInt64 value => return (a.push (.int value)).advance
  | .loadNull => return (a.push .null).advance
  | .dup => do
    let (v, a) ← Access.ofExcept a.pop
    return ((a.push v).push v).advance
  | .pop => do
    let (_, a) ← Access.ofExcept a.pop
    return a.advance
  | .binary op => do return (← Access.ofExcept (a.mapTop2 op.apply)).advance
  | .neg => do
    return (← Access.ofExcept (a.mapTop fun v => (.int <| - ·) <$> v.asInt)).advance
  | .not => do
    return (← Access.ofExcept (a.mapTop fun v => (.int <| ~~~ ·) <$> v.asInt)).advance
  | .compare op => do
    let answer := fun left right => (fun b => .int (if b then 1 else 0)) <$> op.apply left right
    return (← Access.ofExcept (a.mapTop2 answer)).advance
  | .branch target => do return a.jump (← Access.ofExcept (a.target target))
  | .branchIf condition target => do
    let (v, a) ← Access.ofExcept a.pop
    if v.isTrue = condition then return a.jump (← Access.ofExcept (a.target target))
    else return a.advance
  | .callHelper helper => do
    match a.popMany? helper.arity with
    | none => throw (.invalidProgram (.missingHelperArguments helper))
    | some (arguments, a) =>
      let result ← Access.callHelper helper arguments
      if let some event := Event.ofHelper? helper then Access.log event
      return (match result with
        | some v => a.push v
        | none => a).advance
  | .convInt32 => do
    return (← Access.ofExcept (a.mapTop fun v =>
      (.int <| TargetType.narrow .int32 ·) <$> v.asInt)).advance
  | .convInt64 => do return (← Access.ofExcept (a.mapTop toNative)).advance
  | .convNative => do return (← Access.ofExcept (a.mapTop toNative)).advance
  | .convAddress => do return (← Access.ofExcept (a.mapTop toAddress)).advance
  | .newArray element => do
    let (length, a) ← Access.ofExcept a.pop
    return (a.push (← makeArray element length)).advance
  | .arrayLength => do
    let (array, a) ← Access.ofExcept a.pop
    let object ← Access.ofExcept array.asObject
    let (_, elements) ← Access.read (·.array object)
    return (a.push (.int (Int64.ofNat elements.size))).advance
  | .elementAddress element => do
    let (index, a) ← Access.ofExcept a.pop
    let index ← Access.ofExcept index.asInt
    let (array, a) ← Access.ofExcept a.pop
    let object ← Access.ofExcept array.asObject
    let v ← Access.read fun heap => elementReference heap element object index
    return (a.push v).advance
  | .load type => do
    let heap := (← get).heap
    return (← Access.ofExcept (a.mapTop fun v => do heap.load (← v.asPointer) type)).advance
  | .store type => do
    let (v, a) ← Access.ofExcept a.pop
    let (address, a) ← Access.ofExcept a.pop
    let p ← Access.ofExcept address.asPointer
    Access.update (·.store p type v)
    return a.advance
  | .call _ | .ret | .leave _ | .endFinally => return a

end Activation

end ManagedC
