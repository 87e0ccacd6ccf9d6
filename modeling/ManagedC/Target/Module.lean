import ManagedC.Target.Method

/-!
# Modules

A module is a whole program: its methods in the order they were added, and a slot for the one that
the program starts with. Several methods may have the same name, and a look-up by name finds the one
added last.
-/

namespace ManagedC

/-- A program for the target machine. -/
structure Module where
  /-- The name. -/
  name : String
  /-- The methods, numbered from zero. -/
  methods : Array Method := #[]
  /-- The number of the method that the program starts with. -/
  entryPoint : Option Nat := none
  deriving DecidableEq, Inhabited

/-- Why the entry point cannot be set. -/
inductive EntryPointFault where
  /-- It is set already. -/
  | alreadySet (existing requested : String)
  /-- There is no method with this number. -/
  | unknownMethod (id : Nat)
  deriving DecidableEq, Inhabited

namespace EntryPointFault

/-- What the fault says. -/
def message : EntryPointFault → String
  | .alreadySet existing requested =>
    s!"entry point is already set to '{existing}', cannot also designate '{requested}'"
  | .unknownMethod id => s!"method #{id} does not exist in this module"

end EntryPointFault

namespace Module

/-- The module with one more method, which gets the number `m.methods.size`. -/
def addMethod (m : Module) (method : Method) : Module :=
  { m with methods := m.methods.push method }

/-- The method with a name that was added last. -/
def findMethod? (m : Module) (name : String) : Option Method :=
  m.methods.toList.reverse.find? fun method => method.name == name

/-- The method that the program starts with. -/
def entryMethod? (m : Module) : Option Method := m.entryPoint.bind fun id => m.methods[id]?

/-- The module with its entry point set, unless it designates a method already. -/
def setEntryPoint (m : Module) (id : Nat) : Except EntryPointFault Module :=
  match m.methods[id]? with
  | none => throw (.unknownMethod id)
  | some requested =>
    match m.entryMethod? with
    | some existing => throw (.alreadySet existing.name requested.name)
    | none => pure { m with entryPoint := some id }

/-- The module in assembler text. -/
def text (m : Module) : String :=
  s!".module {m.name}\n" ++ String.join (m.methods.toList.mapIdx fun id method =>
    "\n" ++ Method.unlines (method.lines (m.entryPoint == some id)))

/-- The document of a module. -/
def toJson (m : Module) : Json :=
  .record [("name", .ofText m.name), ("methods", .arr (m.methods.toList.map Method.toJson)),
    ("entry_point", (m.entryPoint.map Json.ofNat).getD .null)]

/-- The module that a document describes. -/
def ofJson? : Nat → Json → Option Module
  | 0, _ => none
  | levels + 1, j =>
    match Json.fields? [Json.field "name", Json.field "methods", Json.field "entry_point"] j with
    | some [some name, some methods, entryPoint] => do
      return ⟨← name.text?, (← Json.list? Method.ofJson? levels methods).toArray,
        ← Json.optional? Json.index? entryPoint⟩
    | _ => none

end Module

end ManagedC
