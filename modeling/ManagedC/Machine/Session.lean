import ManagedC.Machine.Step

/-!
# Sessions with a program

A session is a program on the machine: its methods can be called one after the other, and they find
the store as the earlier ones left it. The instructions executed so far count towards one limit.
-/

namespace ManagedC

/-- A program on the machine. -/
structure Session where
  /-- The program. -/
  program : Module
  /-- What its runs are bounded by. -/
  limits : Limits := {}
  /-- The store. -/
  store : Store := {}
  /-- How many instructions have been executed. -/
  steps : Nat := 0
  deriving Inhabited

namespace Session

/-- A call of a method from outside. There is no answer if the machine never stops, which needs
handlers that protect each other in a circle. -/
def invoke (s : Session) (method : Method) (arguments : List Value) :
    Option (CallResult × Session) :=
  match Activation.enter method arguments s.store.depth s.limits.depth with
  | .error f => some (.error ⟨method.name, 0, f⟩, s)
  | .ok current =>
    let run : Run := ⟨s.store.opened, s.steps, current, []⟩
    (run.iterate s.program s.limits (Run.fuel s.program s.limits)).map
      fun (result, store, steps) => (result, { s with store := store, steps := steps })

/-- A call of the method that was added last under a name. -/
def call (s : Session) (name : String) (arguments : List Value) : Option (CallResult × Session) :=
  match s.program.findMethod? name with
  | none => some (.error ⟨name, 0, .missingMethod name⟩, s)
  | some method => s.invoke method arguments

/-- The store with the strings that the host starts a program with, and the reference to them. -/
def hostArguments (args : List String) : StateM Store Value := fun store =>
  let first := store.heap.objects.size
  let heap := args.foldl (fun h text => h.addObject (.string text)) store.heap
  let references := (List.range args.length).map fun i => Value.object (first + i)
  let id := heap.objects.size
  (.object id, { store with heap := heap.addObject (.array .string references.toArray 0) })

/-- The exit code that the result of a method stands for. -/
def exitCode (method : String) : Option Value → Except Failure Int32
  | none => pure 0
  | some (.int v) => pure v.toInt32
  | some v => throw (.crash ⟨method, 0, .typeMismatch (.exitCode v)⟩)

/-- The exit code that a call of a method stands for. -/
def exitCodeOf (method : String) (result : CallResult) : Except Failure Int32 :=
  result.mapError .crash >>= exitCode method

/-- Starts the program with arguments from the host. -/
def runEntry (s : Session) (args : List String) : Option (Except Failure Int32 × Session) :=
  match s.program.entryMethod? with
  | none => some (.error .noEntryPoint, s)
  | some entry =>
    match entry.parameters with
    | [] => (s.invoke entry []).map fun (result, s) => (exitCodeOf entry.name result, s)
    | [only] =>
      if only.type = .array .string then
        let (arguments, store) := hostArguments args s.store
        (({ s with store := store } : Session).invoke entry [arguments]).map
          fun (result, s) => (exitCodeOf entry.name result, s)
      else some (.error (.unsupportedEntry entry.name), s)
    | _ => some (.error (.unsupportedEntry entry.name), s)

end Session

end ManagedC
