import ManagedC.Machine.Fault

/-!
# Managed objects and native memory

The heap holds managed objects, which are never given back, and blocks of native memory, which are
given back once. Both are numbered in the order they were made. An array counts the local variables
that pin it.
-/

namespace ManagedC

/-- A managed object. -/
inductive HeapObject where
  /-- A string. -/
  | string (text : String)
  /-- An array, with the number of variables that pin it. -/
  | array (element : TargetType) (elements : Array Value) (pins : Nat)
  deriving DecidableEq, Inhabited

/-- A block of native memory. -/
inductive Block where
  /-- One that is in use. -/
  | live (bytes : List UInt8)
  /-- One that was given back. -/
  | freed
  deriving DecidableEq, Inhabited

/-- All objects and blocks. -/
structure Heap where
  /-- The managed objects. -/
  objects : Array HeapObject := #[]
  /-- The blocks of native memory. -/
  blocks : Array Block := #[]
  deriving DecidableEq, Inhabited

namespace Block

/-- Whether a block is in use. -/
def isLive : Block → Bool
  | .live _ => true
  | .freed => false

end Block

namespace Heap

/-- The heap with one more object, which gets the number `h.objects.size`. -/
def addObject (h : Heap) (o : HeapObject) : Heap := { h with objects := h.objects.push o }

/-- The heap with one more block, which gets the number `h.blocks.size`. -/
def addBlock (h : Heap) (bytes : List UInt8) : Heap :=
  { h with blocks := h.blocks.push (.live bytes) }

/-- An object. -/
def object (h : Heap) (id : Nat) : Except Fault HeapObject :=
  match h.objects[id]? with
  | some o => pure o
  | none => throw (.invalidProgram (.danglingObject id))

/-- The text of a string. -/
def string (h : Heap) (id : Nat) : Except Fault String := do
  match ← h.object id with
  | .string text => pure text
  | .array _ _ _ => throw (.typeMismatch (.notString id))

/-- The element type and the elements of an array. -/
def array (h : Heap) (id : Nat) : Except Fault (TargetType × Array Value) := do
  match ← h.object id with
  | .array element elements _ => pure (element, elements)
  | .string _ => throw (.typeMismatch (.notArray id))

/-- The heap with other elements in an array. -/
def setElements (h : Heap) (id : Nat) (elements : Array Value) : Except Fault Heap := do
  match ← h.object id with
  | .array element _ pins =>
    pure { h with objects := h.objects.setIfInBounds id (.array element elements pins) }
  | .string _ => throw (.typeMismatch (.notArray id))

/-- How many variables pin an object; none if it cannot be pinned. -/
def pins? (h : Heap) (id : Nat) : Option Nat :=
  match h.objects[id]? with
  | some (.array _ _ pins) => some pins
  | _ => none

/-- The heap with the number of variables that pin an array changed. -/
def changePins (h : Heap) (id : Nat) (change : Nat → Nat) : Except Fault Heap :=
  match h.objects[id]? with
  | some (.array element elements pins) =>
    pure { h with objects := h.objects.setIfInBounds id (.array element elements (change pins)) }
  | _ => throw (.typeMismatch (.notPinnable id))

/-- The heap with an array pinned once more. -/
def pin (h : Heap) (id : Nat) : Except Fault Heap := h.changePins id (· + 1)

/-- The heap with an array pinned once less, if it is pinned at all. -/
def unpin (h : Heap) (id : Nat) : Except Fault Heap := h.changePins id (· - 1)

/-- Whether some variable pins an object. -/
def isPinned (h : Heap) (id : Nat) : Bool := (h.pins? id).any (0 < ·)

/-- The bytes of a block that is in use. -/
def block (h : Heap) (id : Nat) : Except Fault (List UInt8) :=
  match h.blocks[id]? with
  | some (.live bytes) => pure bytes
  | some .freed => throw (.useAfterFree id)
  | none => throw (.invalidProgram (.unknownBlock id))

/-- The heap with other bytes in a block. -/
def setBytes (h : Heap) (id : Nat) (bytes : List UInt8) : Heap :=
  { h with blocks := h.blocks.setIfInBounds id (.live bytes) }

/-- The heap with a block given back. -/
def free (h : Heap) (id : Nat) : Except Fault Heap :=
  match h.blocks[id]? with
  | some (.live _) => pure { h with blocks := h.blocks.setIfInBounds id .freed }
  | some .freed => throw (.doubleFree id)
  | none => throw (.invalidProgram (.unknownBlock id))

/-- How many blocks are in use. -/
def liveBlocks (h : Heap) : Nat := h.blocks.toList.countP Block.isLive

end Heap

end ManagedC
