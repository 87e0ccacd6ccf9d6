import ManagedC.Machine.Store

/-!
# Loading and storing through pointers

Native memory is a store of bytes: an integer is kept with its low byte first. An array is a store of
values: a pointer into it must lead to the start of an element, and the type of the access does not
matter. A pointer into an array that is no managed reference is good only while the array is pinned.
-/

namespace ManagedC

/-- The lowest bytes of a number, the lowest first. -/
def bytesOf : Nat → Nat → List UInt8
  | 0, _ => []
  | width + 1, n => UInt8.ofNat (n % 256) :: bytesOf width (n / 256)

/-- The number that bytes write, the lowest first. -/
def natOfBytes : List UInt8 → Nat
  | [] => 0
  | b :: bs => b.toNat + 256 * natOfBytes bs

namespace TargetType

/-- The size of an element of the type. -/
def elementSize (type : TargetType) : Except Fault Nat :=
  match type.size? with
  | some size => pure size
  | none => throw (.typeMismatch (.noElementSize type))

end TargetType

namespace Heap

/-- Fails if a pointer may not be used now. -/
def checkAccess (h : Heap) (p : Pointer) : Except Fault Unit :=
  match p.place with
  | .array object =>
    if p.managed || h.isPinned object then pure () else throw (.accessViolation object)
  | .native _ => pure ()

/-- The index of the element that an offset into an array leads to. -/
def elementIndex (h : Heap) (object : Nat) (offset : Int64) : Except Fault Nat := do
  let (element, elements) ← h.array object
  let size ← element.elementSize
  if offset < 0 || offset.toInt % size ≠ 0 then throw (.outOfBounds offset (elements.size * size))
  let index := offset.toInt.toNat / size
  if elements.size ≤ index then throw (.indexOutOfRange (Int64.ofNat index) elements.size)
  return index

/-- Where an access of a width to a block of a size begins. -/
def nativeStart (size : Nat) (offset : Int64) (width : Nat) : Except Fault Nat :=
  if offset < 0 || size < offset.toInt.toNat + width then throw (.outOfBounds offset size)
  else pure offset.toInt.toNat

/-- The value of a type that a pointer leads to. -/
def load (h : Heap) (p : Pointer) (type : TargetType) : Except Fault Value := do
  h.checkAccess p
  match p.place with
  | .array object =>
    let index ← h.elementIndex object p.offset
    return (← h.array object).2.getD index .null
  | .native id =>
    if !type.isInteger then throw (.typeMismatch (.nativeLoad type))
    let bytes ← h.block id
    let width ← type.elementSize
    let start ← nativeStart bytes.length p.offset width
    let v := natOfBytes ((bytes.drop start).take width)
    return .int (type.narrow (Int64.ofNat v))

/-- The heap with a value of a type stored where a pointer leads. -/
def store (h : Heap) (p : Pointer) (type : TargetType) (v : Value) : Except Fault Heap := do
  h.checkAccess p
  match p.place with
  | .array object =>
    let index ← h.elementIndex object p.offset
    let (element, elements) ← h.array object
    h.setElements object (elements.setIfInBounds index (v.narrow element))
  | .native id =>
    if !type.isInteger then throw (.typeMismatch (.nativeStore type))
    let width ← type.elementSize
    let v ← v.asInt
    let bytes ← h.block id
    let start ← nativeStart bytes.length p.offset width
    return h.setBytes id
      (bytes.take start ++ bytesOf width v.toUInt64.toNat ++ bytes.drop (start + width))

end Heap

end ManagedC
