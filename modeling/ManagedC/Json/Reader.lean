import ManagedC.Json.Token

/-!
# Reading JSON text

The grammar over tokens. It is strict: one document, no comma after the last element, nothing after
the end. The nesting of a document is not limited here, because parts that nobody reads may nest as
deep as they like.
-/

namespace ManagedC.Json

mutual

/-- A document at the start of the tokens. -/
def valueWithin : Nat → List Token → Option (Json × List Token)
  | 0, _ => none
  | fuel + 1, tokens =>
    match tokens with
    | .scalar value :: rest => some (value, rest)
    | .literal text :: rest => some (.str text, rest)
    | .openArray :: .closeArray :: rest => some (.arr [], rest)
    | .openArray :: rest => (elementsWithin fuel rest).map fun (es, rest) => (.arr es, rest)
    | .openObject :: .closeObject :: rest => some (.obj [], rest)
    | .openObject :: rest => (membersWithin fuel rest).map fun (ms, rest) => (.obj ms, rest)
    | _ => none

/-- The elements of an array from the first one up to and including the closing bracket. -/
def elementsWithin : Nat → List Token → Option (List Json × List Token)
  | 0, _ => none
  | fuel + 1, tokens =>
    match valueWithin fuel tokens with
    | some (value, .closeArray :: rest) => some ([value], rest)
    | some (value, .comma :: rest) =>
      (elementsWithin fuel rest).map fun (es, rest) => (value :: es, rest)
    | _ => none

/-- The members of an object from the first one up to and including the closing brace. -/
def membersWithin : Nat → List Token → Option (List (Option String × Json) × List Token)
  | 0, _ => none
  | fuel + 1, tokens =>
    match tokens with
    | .literal key :: .colon :: tokens =>
      match valueWithin fuel tokens with
      | some (value, .closeObject :: rest) => some ([(key, value)], rest)
      | some (value, .comma :: rest) =>
        (membersWithin fuel rest).map fun (ms, rest) => ((key, value) :: ms, rest)
      | _ => none
    | _ => none

end

/-- The document that tokens spell. Every call of the grammar's functions stands for a token of its
own, so their number is fuel enough. -/
def ofTokens? (tokens : List Token) : Option Json :=
  match valueWithin tokens.length tokens with
  | some (value, []) => some value
  | _ => none

/-- The document written by a text. -/
def parse? (text : String) : Option Json := (tokens? text.toList).bind ofTokens?

end ManagedC.Json
