import ManagedC.Machine.Store

/-!
# Services of the machine

Programs that are started with strings need them in native memory. `argsToArgv` copies an array of
strings into native blocks, each ended by a zero byte, and makes an array of pointers to them, ended
by a null. `freeArgv` gives the blocks back that an array points to. `arrayCopy` copies the start of
an array over the start of another.
-/

namespace ManagedC

namespace Access

/-- The texts of strings. -/
def texts (values : List Value) : Access (List String) :=
  values.mapM fun v => do
    let id ← ofExcept v.asObject
    read (·.string id)

/-- A native copy of a text. The answer is a pointer to it. -/
def nativeCopy (text : String) : Access Value := do
  let id ← newBlock (text.toUTF8.toList ++ [0])
  count fun s => { s with blocksAllocated := s.blocksAllocated + 1 }
  return .pointer ⟨.native id, 0, false⟩

/-- Native copies of an array of strings. -/
def argsToArgv (args : Value) : Access Value := do
  let id ← ofExcept args.asObject
  let (element, strings) ← read (·.array id)
  if element ≠ .string then throw (.typeMismatch (.notStrings element))
  let texts ← texts strings.toList
  let copies ← texts.mapM nativeCopy
  count fun s => { s with argvAllocations := s.argvAllocations + 1 }
  return .object (← newArray (.pointer .uint8) (copies ++ [Value.null]).toArray)

/-- Gives back the block that a value points to, if it points to one. -/
def freeTarget (v : Value) : Access Unit := do
  if let .pointer ⟨.native id, _, _⟩ := v then
    update (·.free id)
    count fun s => { s with blocksFreed := s.blocksFreed + 1 }

/-- Gives back the blocks that the elements of an array point to, in order, until one is not in
use. -/
def freeArgv (argv : Value) : Access Unit := do
  let id ← ofExcept argv.asObject
  let (_, pointers) ← read (·.array id)
  count fun s => { s with argvFrees := s.argvFrees + 1 }
  pointers.toList.forM freeTarget

/-- Copies the first elements of an array over those of another. -/
def arrayCopy (source destination : Value) (length : Int64) : Access Unit := do
  let source ← ofExcept source.asObject
  let destination ← ofExcept destination.asObject
  if length < 0 then throw (.indexOutOfRange length 0)
  let n := length.toInt.toNat
  let (sourceElement, items) ← read (·.array source)
  if items.size < n then throw (.indexOutOfRange length items.size)
  let (destinationElement, targets) ← read (·.array destination)
  if destinationElement ≠ sourceElement then
    throw (.typeMismatch (.differentElements sourceElement destinationElement))
  if targets.size < n then throw (.indexOutOfRange length targets.size)
  update (·.setElements destination (items.extract 0 n ++ targets.extract n targets.size))

/-- Calls a service with arguments in order. -/
def callHelper (helper : Helper) (arguments : List Value) : Access (Option Value) := do
  match helper, arguments with
  | .argsToArgv, [args] => some <$> argsToArgv args
  | .freeArgv, [argv] => do
    freeArgv argv
    return none
  | .arrayCopy, [source, destination, length] => do
    let length ← ofExcept length.asInt
    arrayCopy source destination length
    return none
  | _, _ => throw (.invalidProgram (.helperArguments helper arguments.length))

end Access

end ManagedC
