import ManagedC.Machine.Heap

/-!
# The store of the machine

What outlives a call: the heap, a count of what was allocated, pinned and given back, a log of the
same, and the number of calls in progress. `Access` is a computation that works on the store; one
that faults leaves behind what it did before.
-/

namespace ManagedC

/-- How often things were allocated, pinned and given back. -/
structure Stats where
  /-- Native copies of string arrays made. -/
  argvAllocations : Nat := 0
  /-- Native copies of string arrays given back. -/
  argvFrees : Nat := 0
  /-- Native blocks made for them. -/
  blocksAllocated : Nat := 0
  /-- Native blocks given back. -/
  blocksFreed : Nat := 0
  /-- Stores of a pointer into an array to a pinned variable. -/
  pins : Nat := 0
  /-- Pins undone by another store to the variable. -/
  unpins : Nat := 0
  /-- Pins undone by the end of a call. -/
  frameExitUnpins : Nat := 0
  deriving DecidableEq, Inhabited

/-- Something that happened to memory. -/
inductive Event where
  /-- A native copy of a string array was made. -/
  | argvAllocated
  /-- An array was pinned. -/
  | pinned
  /-- A pin was undone by the program. -/
  | unpinned
  /-- A pin was undone by the end of a call. -/
  | frameExitUnpinned
  /-- A native copy of a string array was given back. -/
  | argvFreed
  deriving DecidableEq, Inhabited

/-- The heap, the record of what happened to it and the counter of calls. -/
structure Store where
  /-- The objects and blocks. -/
  heap : Heap := {}
  /-- The counts. -/
  stats : Stats := {}
  /-- The log, in order. -/
  events : Array Event := #[]
  /-- How many calls are in progress. -/
  depth : Nat := 0
  deriving DecidableEq, Inhabited

/-- A computation that works on the store. -/
abbrev Access (α : Type) := ExceptT Fault (StateM Store) α

namespace Event

/-- The name of an event. -/
def name : Event → String
  | .argvAllocated => "ArgvAllocated"
  | .pinned => "Pinned"
  | .unpinned => "Unpinned"
  | .frameExitUnpinned => "FrameExitUnpinned"
  | .argvFreed => "ArgvFreed"

/-- The event of a finished call of a service. -/
def ofHelper? : Helper → Option Event
  | .argsToArgv => some .argvAllocated
  | .freeArgv => some .argvFreed
  | .arrayCopy => none

end Event

namespace Store

/-- The store with a changed count. -/
def count (s : Store) (change : Stats → Stats) : Store := { s with stats := change s.stats }

/-- The store with one more event. -/
def log (s : Store) (e : Event) : Store := { s with events := s.events.push e }

/-- The store with one more call in progress. -/
def opened (s : Store) : Store := { s with depth := s.depth + 1 }

/-- The store with one call less in progress. -/
def closed (s : Store) : Store := { s with depth := s.depth - 1 }

section Calls

variable (s : Store)

@[simp]
theorem opened_heap : s.opened.heap = s.heap := rfl

@[simp]
theorem opened_stats : s.opened.stats = s.stats := rfl

@[simp]
theorem opened_events : s.opened.events = s.events := rfl

@[simp]
theorem opened_depth : s.opened.depth = s.depth + 1 := rfl

@[simp]
theorem closed_heap : s.closed.heap = s.heap := rfl

@[simp]
theorem closed_stats : s.closed.stats = s.stats := rfl

@[simp]
theorem closed_events : s.closed.events = s.events := rfl

@[simp]
theorem closed_depth : s.closed.depth = s.depth - 1 := rfl

@[simp]
theorem closed_opened : s.opened.closed = s := rfl

end Calls

end Store

namespace Access

/-- A result as a computation that changes nothing. -/
def ofExcept {α : Type} (result : Except Fault α) : Access α := fun s => (result, s)

/-- Something read off the heap. -/
def read {α : Type} (f : Heap → Except Fault α) : Access α := do ofExcept (f (← get).heap)

/-- A change of the heap. -/
def update (f : Heap → Except Fault Heap) : Access Unit := do
  let heap ← read f
  modify fun s => { s with heap := heap }

/-- A change of the counts. -/
def count (change : Stats → Stats) : Access Unit := modify (·.count change)

/-- An event logged. -/
def log (e : Event) : Access Unit := modify (·.log e)

/-- A new object. The answer is its number. -/
def newObject (o : HeapObject) : Access Nat := do
  let id := (← get).heap.objects.size
  modify fun s => { s with heap := s.heap.addObject o }
  return id

/-- A new array. The answer is its number. -/
def newArray (element : TargetType) (elements : Array Value) : Access Nat :=
  newObject (.array element elements 0)

/-- A new block of native memory. The answer is its number. -/
def newBlock (bytes : List UInt8) : Access Nat := do
  let id := (← get).heap.blocks.size
  modify fun s => { s with heap := s.heap.addBlock bytes }
  return id

end Access

end ManagedC
