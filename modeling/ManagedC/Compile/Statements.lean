import ManagedC.Compile.Body
import ManagedC.Compile.Expressions

/-!
# Code for statements

The code of a body leaves the evaluation stack as it found it. Blocks and loops are closed again even
where the code inside them cannot be emitted.
-/

namespace ManagedC

open Emit

namespace LocalDeclaration

/-- Emits the code of a local declaration. The initial value cannot refer to the variable that it
initializes. -/
def compile (d : LocalDeclaration) : Emit Unit := do
  match d.initializer with
  | none => discard <| declareLocal d.name d.type d.location
  | some initializer =>
    let type ← initializer.compile
    let v ← declareLocal d.name d.type d.location
    coerce type d.type d.location
    instr v.store

end LocalDeclaration

namespace Emit

/-- Jumps to a label of the innermost loop. -/
def jumpInLoop (label : LoopLabels → Label) (refusal : Refusal) (location : Location) :
    Emit Unit := do
  match (← get).loops with
  | [] => refuse refusal location
  | labels :: _ => instr (.branch (label labels))

/-- Returns from the function, which must have a result exactly if a value is given. -/
def returnFrom (value : Option Expression) (location : Location) : Emit Unit := do
  let signature := (← get).signature
  match value with
  | some value =>
    if signature.returnType.isVoid then
      throw (.misused (.unexpectedValue signature.name) location)
    coerce (← value.compile) signature.returnType location
  | none =>
    if !signature.returnType.isVoid then
      throw (.misused (.missingValue signature.name) location)
  instr .ret

/-- A choice without an alternative. -/
def conditional (condition : Emit Unit) (thenBranch : Emit Unit) : Emit Unit := do
  let otherwise ← newLabel
  condition
  instr (.branchIf false otherwise)
  thenBranch
  mark otherwise

/-- A choice between two branches. The jump over the second one is left out if control cannot get
there. -/
def choice (condition : Emit Unit) (thenBranch elseBranch : Emit Unit) : Emit Unit := do
  let otherwise ← newLabel
  condition
  instr (.branchIf false otherwise)
  thenBranch
  let stop ← newLabel
  if !(← get).assembler.isTerminated then instr (.branch stop)
  mark otherwise
  elseBranch
  mark stop

/-- A loop that tests before its body. -/
def whileLoop (condition : Emit Unit) (body : Emit Unit) : Emit Unit := do
  let again ← newLabel
  let stop ← newLabel
  mark again
  condition
  instr (.branchIf false stop)
  withLoop stop again body
  instr (.branch again)
  mark stop

/-- A loop that tests after its body. -/
def doWhileLoop (body : Emit Unit) (condition : Emit Unit) : Emit Unit := do
  let again ← newLabel
  let test ← newLabel
  let stop ← newLabel
  mark again
  withLoop stop test body
  mark test
  condition
  instr (.branchIf true again)
  mark stop

/-- A loop with a start, a test and an update. -/
def forLoop (start : Emit Unit) (condition : Option (Emit Unit)) (update body : Emit Unit) :
    Emit Unit := do
  start
  let again ← newLabel
  let next ← newLabel
  let stop ← newLabel
  mark again
  if let some condition := condition then
    condition
    instr (.branchIf false stop)
  withLoop stop next body
  mark next
  update
  instr (.branch again)
  mark stop

end Emit

namespace Body

mutual

/-- Emits the code of a body. -/
def compile : Body → Emit Unit
  | .block parts => withBlock (compileAll parts)
  | .expression e => e.compileEffect
  | .declare locals => locals.forM LocalDeclaration.compile
  | .conditional condition thenBranch none =>
    Emit.conditional condition.compileCondition thenBranch.compile
  | .conditional condition thenBranch (some elseBranch) =>
    choice condition.compileCondition thenBranch.compile elseBranch.compile
  | .whileLoop condition body => Emit.whileLoop condition.compileCondition body.compile
  | .doWhileLoop body condition => Emit.doWhileLoop body.compile condition.compileCondition
  | .forLoop none condition update body =>
    withBlock (Emit.forLoop (pure ()) (condition.map Expression.compileCondition)
      (update.forM Expression.compileEffect) body.compile)
  | .forLoop (some start) condition update body =>
    withBlock (Emit.forLoop start.compile (condition.map Expression.compileCondition)
      (update.forM Expression.compileEffect) body.compile)
  | .exitLoop location => jumpInLoop LoopLabels.exit .breakOutsideLoop location
  | .nextRound location => jumpInLoop LoopLabels.next .continueOutsideLoop location
  | .ret value location => returnFrom value location
  | .empty => return

/-- Emits the code of bodies one after the other. -/
def compileAll : List Body → Emit Unit
  | [] => return
  | part :: parts => do
    part.compile
    compileAll parts

end

end Body

end ManagedC
