/-!
# JSON documents

A document keeps what a reader of records needs and no more: integers are told apart from other
numbers, the members of an object keep their order and their repetitions, and a string literal
whose escapes name half a surrogate pair is kept as a literal without text. Such a literal is
harmless where nobody looks at it and is refused where a text is wanted.
-/

namespace ManagedC

/-- A JSON document. -/
inductive Json where
  /-- The literal `null`. -/
  | null
  /-- A truth value. -/
  | bool (value : Bool)
  /-- A number written with digits only, possibly after a minus sign; `-0` is not among them. -/
  | int (value : Int)
  /-- Any other number, as it is written. -/
  | real (token : String)
  /-- A string literal; `none` if it names half a surrogate pair, and so no text. -/
  | str (text : Option String)
  /-- An array. -/
  | arr (elements : List Json)
  /-- An object, its members in the order written. -/
  | obj (members : List (Option String × Json))
  deriving Inhabited

namespace Json

/-- The string literal of a text. -/
def ofText (text : String) : Json := .str (some text)

/-- The text of a document, or `null` if there is none. -/
def ofText? (text : Option String) : Json := (text.map ofText).getD .null

/-- The document of a natural number. -/
def ofNat (n : Nat) : Json := .int n

/-- An object with the given members, in order. -/
def record (members : List (String × Json)) : Json :=
  .obj (members.map fun m => (some m.1, m.2))

/-- An object with the one member `name`. -/
def variant (name : String) (payload : Json) : Json := record [(name, payload)]

end Json

end ManagedC
