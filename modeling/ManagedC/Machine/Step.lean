import ManagedC.Machine.Activation

/-!
# Steps of the machine

The machine runs one call at a time and keeps the calls that wait for it. A step executes one
instruction. When a call crashes, its handlers around the instruction run first, the inner ones
first; then the crash goes on in the call that waits, at its call instruction. A handler that ends
otherwise than it should, or crashes itself, replaces the crash that it was run for, and the other
handlers that were to run in the same call are dropped.
-/

namespace ManagedC

/-- What a run is bounded by. -/
structure Limits where
  /-- How many instructions may be executed. -/
  steps : Nat := 10000000
  /-- How many calls may be in progress. -/
  depth : Nat := 256
  deriving DecidableEq, Inhabited

/-- How a call ends: with its value, if it has one, or with a crash. -/
abbrev CallResult := Except Crash (Option Value)

/-- The machine while a call is in progress. -/
structure Run where
  /-- The store. -/
  store : Store
  /-- How many instructions have been executed. -/
  steps : Nat
  /-- The call in progress. -/
  current : Activation
  /-- The calls that wait, the latest first. -/
  callers : List Activation
  deriving Inhabited

/-- The machine after a step. -/
inductive Progress where
  /-- There is more to do. -/
  | more (run : Run)
  /-- The outermost call has ended. -/
  | done (result : CallResult) (store : Store) (steps : Nat)
  deriving Inhabited

namespace Run

/-- A crash in a call for which others wait. -/
def raise (store : Store) (steps : Nat) (c : Crash) (current : Activation) :
    List Activation → Progress
  | [] =>
    match current.runHandlers (current.regions.filter (·.protects current.pc)) (.fail c) with
    | some current => .more ⟨store, steps, current, []⟩
    | none => .done (.error c) (current.close store) steps
  | caller :: callers =>
    match current.runHandlers (current.regions.filter (·.protects current.pc)) (.fail c) with
    | some current => .more ⟨store, steps, current, caller :: callers⟩
    | none => raise (current.close store) steps c caller callers

/-- The end of the call in progress with a crash, whatever handlers it has. -/
def abandon (r : Run) (c : Crash) : Progress :=
  match r.callers with
  | [] => .done (.error c) (r.current.close r.store) r.steps
  | caller :: callers => raise (r.current.close r.store) r.steps c caller callers

/-- A crash at the current instruction. -/
def crash (r : Run) (c : Crash) : Progress := raise r.store r.steps c r.current r.callers

/-- A fault at the current instruction. -/
def fault (r : Run) (f : Fault) : Progress := r.crash (r.current.crash f)

/-- The end of the call in progress with a result. -/
def finish (r : Run) (value : Option Value) : Progress :=
  let store := r.current.close r.store
  match r.callers with
  | [] => .done (.ok value) store r.steps
  | caller :: callers =>
    let resumed := match value with
      | some v => caller.push v
      | none => caller
    .more ⟨store, r.steps, resumed.advance, callers⟩

/-- A return: it ends the call, unless a handler is running. -/
def ret (r : Run) : Progress :=
  let popped : Except Fault (Option Value) :=
    if r.current.method.returnType = .void then pure none
    else (fun p => some p.1) <$> r.current.pop
  match popped, r.current.pending with
  | .error f, _ => r.fault f
  | .ok value, [] => r.finish value
  | .ok _, p :: _ =>
    r.abandon ⟨r.current.method.name, p.handlerStart, .invalidProgram .handlerReturned⟩

/-- The end of a handler: the next one runs, or what was to come after them comes. -/
def endHandler (r : Run) : Progress :=
  match r.current.pending with
  | [] => r.abandon ⟨r.current.method.name, 0, .invalidProgram .strayEndFinally⟩
  | p :: outer =>
    let settled := { r.current with stack := [], pending := outer }
    match settled.runHandlers p.rest p.completion, p.completion with
    | some current, _ => .more { r with current := current }
    | none, .jump target => .more { r with current := settled.jump target }
    | none, .fail c => r.abandon c

/-- A jump out of protected regions: the handlers of those that are left run first. -/
def leave (r : Run) (label : Label) : Progress :=
  match r.current.target label with
  | .error f => r.fault f
  | .ok target =>
    let left := r.current.regions.filter fun region =>
      region.protects r.current.pc && !region.protects target
    match r.current.runHandlers left (.jump target) with
    | some current => .more { r with current := current }
    | none => .more { r with current := { r.current with stack := [] }.jump target }

/-- A call of the method that was added last under a name. -/
def call (program : Module) (limits : Limits) (r : Run) (name : String) : Progress :=
  match program.findMethod? name with
  | none => r.fault (.missingMethod name)
  | some method =>
    match r.current.popMany? method.parameters.length with
    | none => r.fault (.invalidProgram (.missingArguments name))
    | some (arguments, caller) =>
      match Activation.enter method arguments r.store.depth limits.depth with
      | .ok current => .more ⟨r.store.opened, r.steps, current, caller :: r.callers⟩
      | .error f => r.crash ⟨method.name, 0, f⟩

/-- An instruction that stays inside the call. -/
def execute (r : Run) (i : Instruction) : Progress :=
  match r.current.execute i r.store with
  | (.ok current, store) => .more { r with store := store, current := current }
  | (.error f, store) => fault { r with store := store } f

/-- One step: an instruction, unless the limit is reached. -/
def step (program : Module) (limits : Limits) (r : Run) : Progress :=
  if limits.steps ≤ r.steps then r.fault (.stepLimitExceeded limits.steps)
  else
    let r := { r with steps := r.steps + 1 }
    match r.current.instruction? with
    | none => r.fault (.invalidProgram (.fellOff r.current.method.name))
    | some (.call method) => call program limits r method.name
    | some .ret => r.ret
    | some (.leave label) => r.leave label
    | some .endFinally => r.endHandler
    | some i => r.execute i

/-- Steps until the outermost call has ended, at most as many as the fuel allows. -/
def iterate (program : Module) (limits : Limits) : Nat → Run → Option (CallResult × Store × Nat)
  | 0, _ => none
  | fuel + 1, r =>
    match r.step program limits with
    | .done result store steps => some (result, store, steps)
    | .more r => iterate program limits fuel r

/-- Steps enough for any run: those that execute an instruction are limited, and after the limit a
call crashes in each handler at most once, unless its handlers protect each other in a circle. -/
def fuel (program : Module) (limits : Limits) : Nat :=
  let handlers := program.methods.toList.map fun m => m.body.handlers.length
  limits.steps + (limits.depth + 1) * (handlers.foldl max 0 + 2)

end Run

end ManagedC
