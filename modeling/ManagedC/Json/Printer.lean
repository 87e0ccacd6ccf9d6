import ManagedC.Json

/-!
# Writing JSON text

Two layouts of one document: `compact` without any white space, and `pretty` with every element and
member on a line of its own, indented by two spaces a level. An empty array or object stays on one
line. A string literal escapes the quote, the backslash and the control characters, and nothing
else.
-/

namespace ManagedC.Json

/-- The lower-case hexadecimal digit of a number below sixteen. -/
def hexChar (n : Nat) : Char := if n < 10 then Char.ofNat (n + 48) else Char.ofNat (n + 87)

/-- How a character is written inside a string literal. -/
def escaped (c : Char) : List Char :=
  if c = '"' then ['\\', '"']
  else if c = '\\' then ['\\', '\\']
  else if c = '\x08' then ['\\', 'b']
  else if c = '\x0c' then ['\\', 'f']
  else if c = '\n' then ['\\', 'n']
  else if c = '\r' then ['\\', 'r']
  else if c = '\t' then ['\\', 't']
  else if c.toNat < 0x20 then ['\\', 'u', '0', '0', hexChar (c.toNat / 16), hexChar (c.toNat % 16)]
  else [c]

/-- A string literal. One without text is written as half a surrogate pair, which reads back as
such. -/
def literalChars : Option String → List Char
  | some text => '"' :: text.toList.flatMap escaped ++ ['"']
  | none => "\"\\ud800\"".toList

/-- The text of a document without parts. -/
def scalarChars : Json → List Char
  | .null => "null".toList
  | .bool true => "true".toList
  | .bool false => "false".toList
  | .int value => (toString value).toList
  | .real token => token.toList
  | .str text => literalChars text
  | .arr _ => []
  | .obj _ => []

/-- A line break and the indentation of a level. -/
def newline (level : Nat) : List Char := '\n' :: List.replicate (2 * level) ' '

mutual

/-- The pretty layout of a document that stands at the given level. -/
def prettyChars (level : Nat) : Json → List Char
  | .arr [] => ['[', ']']
  | .arr (e :: es) => '[' :: prettyElements (level + 1) (e :: es) ++ newline level ++ [']']
  | .obj [] => ['\x7b', '\x7d']
  | .obj (m :: ms) => '\x7b' :: prettyMembers (level + 1) (m :: ms) ++ newline level ++ ['\x7d']
  | j => scalarChars j

/-- The pretty layout of elements, each after a line break. -/
def prettyElements (level : Nat) : List Json → List Char
  | [] => []
  | [e] => newline level ++ prettyChars level e
  | e :: es => newline level ++ prettyChars level e ++ ',' :: prettyElements level es

/-- The pretty layout of members, each after a line break. -/
def prettyMembers (level : Nat) : List (Option String × Json) → List Char
  | [] => []
  | [(key, value)] => newline level ++ literalChars key ++ [':', ' '] ++ prettyChars level value
  | (key, value) :: ms =>
    newline level ++ literalChars key ++ [':', ' '] ++ prettyChars level value ++
      ',' :: prettyMembers level ms

end

/-- The pretty layout of a document. -/
def pretty (j : Json) : String := String.ofList (prettyChars 0 j)

mutual

/-- The compact layout of a document. -/
def compactChars : Json → List Char
  | .arr es => '[' :: compactElements es ++ [']']
  | .obj ms => '\x7b' :: compactMembers ms ++ ['\x7d']
  | j => scalarChars j

/-- The compact layout of elements. -/
def compactElements : List Json → List Char
  | [] => []
  | [e] => compactChars e
  | e :: es => compactChars e ++ ',' :: compactElements es

/-- The compact layout of members. -/
def compactMembers : List (Option String × Json) → List Char
  | [] => []
  | [(key, value)] => literalChars key ++ ':' :: compactChars value
  | (key, value) :: ms => literalChars key ++ ':' :: compactChars value ++ ',' :: compactMembers ms

end

/-- The compact layout of a document. -/
def compact (j : Json) : String := String.ofList (compactChars j)

end ManagedC.Json
