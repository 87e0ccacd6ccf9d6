import ManagedC.Target.Method

/-!
# Assembling a method

An `Assembler` is a method under construction together with the labels it has handed out and the
protected regions that are still open. `Assembly` is a computation that works on one. A step that
fails leaves behind what it did before it failed.
-/

namespace ManagedC

/-- A protected region that is not closed yet. -/
structure OpenRegion where
  /-- The label at the start of the region. -/
  tryStart : Label
  /-- The label at the start of the handler, once the handler is begun. -/
  handlerStart : Option Label
  /-- The label after the handler. -/
  stop : Label
  deriving DecidableEq, Inhabited

/-- A method under construction. -/
structure Assembler where
  /-- The method so far. -/
  method : Method
  /-- The next label to hand out. -/
  nextLabel : Label := 0
  /-- The open regions, the innermost first. -/
  regions : List OpenRegion := []
  deriving DecidableEq, Inhabited

/-- Why a step of assembling a method fails. -/
inductive AssemblerFault where
  /-- The label was not handed out. -/
  | unknownLabel (label : Label)
  /-- The label is bound already. -/
  | labelMarkedTwice (label : Label) (method : String)
  /-- The innermost region has its handler already. -/
  | handlerAlreadyStarted
  /-- A handler is begun and no region is open. -/
  | finallyWithoutRegion
  /-- A region is closed and none is open. -/
  | endWithoutRegion
  /-- A region is closed before its handler is begun. -/
  | endBeforeFinally
  /-- The method is finished while regions are open. -/
  | openRegions (method : String) (count : Nat)
  /-- The method is finished while a jump has no target. -/
  | unboundLabel (method : String) (label : Label)
  deriving DecidableEq, Inhabited

namespace AssemblerFault

/-- What the fault says. -/
def message : AssemblerFault → String
  | .unknownLabel label => s!"label L{label} was not created by this builder"
  | .labelMarkedTwice label method => s!"label L{label} marked twice in method '{method}'"
  | .handlerAlreadyStarted => "finally handler already started for innermost region"
  | .finallyWithoutRegion => "begin_finally without an open region"
  | .endWithoutRegion => "end_try without an open region"
  | .endBeforeFinally => "end_try before begin_finally"
  | .openRegions method count =>
    s!"method '{method}' finished with {count} open protected region(s)"
  | .unboundLabel method label => s!"method '{method}' branches to unbound label L{label}"

end AssemblerFault

/-- A computation that works on a method under construction. -/
abbrev Assembly (α : Type) := ExceptT AssemblerFault (StateM Assembler) α

namespace Assembler

/-- The start of a method. -/
def begin (name : String) (returnType : TargetType) (attributes : MethodAttributes) : Assembler :=
  { method := .declare name returnType attributes }

/-- The offset of the next instruction. -/
def offset (a : Assembler) : Nat := a.method.body.instructions.size

/-- The method under construction with a changed body. -/
def withBody (a : Assembler) (change : MethodBody → MethodBody) : Assembler :=
  { a with method := { a.method with body := change a.method.body } }

/-- One more instruction. -/
def push (a : Assembler) (i : Instruction) : Assembler :=
  a.withBody fun b => { b with instructions := b.instructions.push i }

/-- A label bound to the next instruction. -/
def bind (a : Assembler) (label : Label) : Assembler :=
  a.withBody fun b => { b with labels := b.labels.insert label a.offset }

/-- One more closed region. -/
def addHandler (a : Assembler) (h : Handler) : Assembler :=
  a.withBody fun b => { b with handlers := b.handlers ++ [h] }

/-- One more parameter. -/
def pushParameter (a : Assembler) (p : MethodParameter) : Assembler :=
  { a with method := { a.method with parameters := a.method.parameters ++ [p] } }

/-- One more local variable. -/
def pushLocal (a : Assembler) (v : LocalVariable) : Assembler :=
  { a with method := { a.method with locals := a.method.locals.push v } }

/-- Whether control cannot go on past the last instruction. A label bound to the next instruction
makes that place reachable again. -/
def isTerminated (a : Assembler) : Bool :=
  (a.method.body.labels.labelsAt a.offset).isEmpty
    && (a.method.body.instructions.back?.map Instruction.isTerminator).getD false

/-- The smallest label that is jumped to and not bound. -/
def unboundTarget? (a : Assembler) : Option Label :=
  ((a.method.body.instructions.toList.filterMap Instruction.target?).filter
    fun label => !a.method.body.labels.isBound label).min?

/-- The finished method, whose regions must be closed and whose jumps must have targets. -/
def finish (a : Assembler) : Except AssemblerFault Method :=
  if !a.regions.isEmpty then throw (.openRegions a.method.name a.regions.length)
  else
    match a.unboundTarget? with
    | some label => throw (.unboundLabel a.method.name label)
    | none => pure a.method

end Assembler

namespace Assembly

/-- A parameter appended. The answer is its slot, which is its number in sixteen bits. -/
def addParameter (name : Option String) (type : TargetType) : Assembly UInt16 := do
  let slot := UInt16.ofNat (← get).method.parameters.length
  modify (·.pushParameter ⟨name, type⟩)
  return slot

/-- A local variable appended. The answer is its slot, which is its number in sixteen bits. -/
def addLocal (name : Option String) (type : TargetType) (pinned : Bool) : Assembly UInt16 := do
  let slot := UInt16.ofNat (← get).method.locals.size
  modify (·.pushLocal ⟨name, type, pinned⟩)
  return slot

/-- A fresh label. -/
def newLabel : Assembly Label := do
  let label := (← get).nextLabel
  modify fun a => { a with nextLabel := label + 1 }
  return label

/-- Binds a label to the next instruction. A label that is bound already is moved there, and the
step fails. -/
def mark (label : Label) : Assembly Unit := do
  let a ← get
  if a.nextLabel ≤ label then throw (.unknownLabel label)
  set (a.bind label)
  if a.method.body.labels.isBound label then throw (.labelMarkedTwice label a.method.name)

/-- Appends an instruction. -/
def emit (i : Instruction) : Assembly Unit := modify (·.push i)

/-- Opens a protected region. The answer is the label after its handler. -/
def beginTry : Assembly Label := do
  let tryStart ← newLabel
  let stop ← newLabel
  mark tryStart
  modify fun a => { a with regions := ⟨tryStart, none, stop⟩ :: a.regions }
  return stop

/-- Ends the protected body of the innermost region and begins its handler. Control that reaches
the end of the body leaves the region. -/
def beginFinally : Assembly Unit := do
  match (← get).regions with
  | [] => throw .finallyWithoutRegion
  | region :: outer =>
    if region.handlerStart.isSome then throw .handlerAlreadyStarted
    emit (.leave region.stop)
    let handlerStart ← newLabel
    mark handlerStart
    modify fun a => { a with regions := { region with handlerStart := some handlerStart } :: outer }

/-- Ends the handler of the innermost region and closes the region. -/
def endTry : Assembly Unit := do
  match (← get).regions with
  | [] => throw .endWithoutRegion
  | region :: outer =>
    match region.handlerStart with
    | none => throw .endBeforeFinally
    | some handlerStart =>
      modify fun a => { a with regions := outer }
      emit .endFinally
      mark region.stop
      modify (·.addHandler ⟨region.tryStart, handlerStart, handlerStart, region.stop⟩)

end Assembly

end ManagedC
