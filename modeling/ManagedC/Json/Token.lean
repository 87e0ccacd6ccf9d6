import ManagedC.Json
import ManagedC.Text

/-!
# Tokens of JSON text

Text is cut into tokens first and the tokens are put together afterwards, so that white space
matters in one place only. Every function here takes the characters that are left and returns what
it read together with the rest; `none` means that the text is not JSON.
-/

namespace ManagedC.Json

open Text (isDigit natOfDigits)

/-- A token of JSON text. -/
inductive Token where
  /-- The opening brace of an object. -/
  | openObject
  /-- The closing brace of an object. -/
  | closeObject
  /-- The opening bracket of an array. -/
  | openArray
  /-- The closing bracket of an array. -/
  | closeArray
  /-- The mark between a key and its value. -/
  | colon
  /-- The mark between elements or members. -/
  | comma
  /-- A document without parts that is not a string. -/
  | scalar (value : Json)
  /-- A string literal, `none` if it names no text. -/
  | literal (text : Option String)
  deriving Inhabited

/-- The four characters that may stand between tokens. -/
def isBlank (c : Char) : Bool := c = ' ' || c = '\t' || c = '\n' || c = '\r'

/-- The value of a hexadecimal digit of either case. -/
def hexDigit? (c : Char) : Option Nat :=
  if '0' ≤ c && c ≤ '9' then some (c.toNat - '0'.toNat)
  else if 'a' ≤ c && c ≤ 'f' then some (c.toNat - 'a'.toNat + 10)
  else if 'A' ≤ c && c ≤ 'F' then some (c.toNat - 'A'.toNat + 10)
  else none

/-- The number written by hexadecimal digits. -/
def hexNumber? (digits : List Char) : Option Nat :=
  digits.foldlM (fun n c => (hexDigit? c).map (16 * n + ·)) 0

/-- The character that a one-letter escape stands for. -/
def shortEscape? : Char → Option Char
  | '"' => some '"'
  | '\\' => some '\\'
  | '/' => some '/'
  | 'b' => some '\x08'
  | 'f' => some '\x0c'
  | 'n' => some '\n'
  | 'r' => some '\r'
  | 't' => some '\t'
  | _ => none

/-- The body of a string literal, up to and including its closing quote, as the code units that its
characters and escapes name: an escape names sixteen bits, a plain character its code point. -/
def literalUnits : List Char → Option (List Nat × List Char)
  | [] => none
  | '"' :: rest => some ([], rest)
  | '\\' :: 'u' :: a :: b :: c :: d :: rest => do
    let unit ← hexNumber? [a, b, c, d]
    let (units, rest) ← literalUnits rest
    return (unit :: units, rest)
  | '\\' :: c :: rest => do
    let char ← shortEscape? c
    let (units, rest) ← literalUnits rest
    return (char.toNat :: units, rest)
  | c :: rest =>
    if c.toNat < 0x20 then none
    else do
      let (units, rest) ← literalUnits rest
      return (c.toNat :: units, rest)

/-- The first half of a surrogate pair. -/
def isHighSurrogate (unit : Nat) : Bool := 0xd800 ≤ unit && unit < 0xdc00

/-- The second half of a surrogate pair. -/
def isLowSurrogate (unit : Nat) : Bool := 0xdc00 ≤ unit && unit < 0xe000

/-- The characters that code units name, `none` if half a surrogate pair stands alone. -/
def charsOfUnits : List Nat → Option (List Char)
  | [] => some []
  | high :: low :: rest =>
    if isHighSurrogate high then
      if isLowSurrogate low then
        (charsOfUnits rest).map
          (Char.ofNat (0x10000 + (high - 0xd800) * 0x400 + (low - 0xdc00)) :: ·)
      else none
    else if isLowSurrogate high then none
    else (charsOfUnits (low :: rest)).map (Char.ofNat high :: ·)
  | [unit] =>
    if isHighSurrogate unit || isLowSurrogate unit then none else some [Char.ofNat unit]

/-- The text that code units name. -/
def textOfUnits? (units : List Nat) : Option String :=
  (charsOfUnits units).map String.ofList

/-- The digits before a fraction: one zero, or any number of digits that do not start with one. -/
def wholeDigits? : List Char → Option (List Char × List Char)
  | [] => none
  | '0' :: rest => some (['0'], rest)
  | c :: rest =>
    if isDigit c then some (c :: rest.takeWhile isDigit, rest.dropWhile isDigit) else none

/-- A fraction, if one follows: a point and at least one digit. -/
def fraction? : List Char → Option (List Char × List Char)
  | '.' :: rest =>
    let digits := rest.takeWhile isDigit
    if digits.isEmpty then none else some ('.' :: digits, rest.dropWhile isDigit)
  | rest => some ([], rest)

/-- The sign of an exponent, if one follows. -/
def exponentSign : List Char → List Char × List Char
  | '+' :: rest => (['+'], rest)
  | '-' :: rest => (['-'], rest)
  | rest => ([], rest)

/-- An exponent, if one follows: its letter, perhaps a sign, and at least one digit. -/
def exponent? : List Char → Option (List Char × List Char)
  | [] => some ([], [])
  | c :: rest =>
    if c = 'e' || c = 'E' then
      let (sign, rest) := exponentSign rest
      let digits := rest.takeWhile isDigit
      if digits.isEmpty then none else some (c :: sign ++ digits, rest.dropWhile isDigit)
    else some ([], c :: rest)

/-- The document of a number with the given sign and parts. -/
def numberOfParts (negative : Bool) (whole fraction exponent : List Char) : Json :=
  if fraction.isEmpty && exponent.isEmpty && !(negative && whole == ['0']) then
    .int (if negative then -(natOfDigits whole : Int) else natOfDigits whole)
  else
    .real (String.ofList ((if negative then ['-'] else []) ++ whole ++ fraction ++ exponent))

/-- A number after its sign. -/
def number? (negative : Bool) (cs : List Char) : Option (Json × List Char) := do
  let (whole, cs) ← wholeDigits? cs
  let (fraction, cs) ← fraction? cs
  let (exponent, cs) ← exponent? cs
  return (numberOfParts negative whole fraction exponent, cs)

/-- The token at the start of the characters, which must not start with a blank. -/
def token? : List Char → Option (Token × List Char)
  | [] => none
  | '\x7b' :: rest => some (.openObject, rest)
  | '\x7d' :: rest => some (.closeObject, rest)
  | '[' :: rest => some (.openArray, rest)
  | ']' :: rest => some (.closeArray, rest)
  | ':' :: rest => some (.colon, rest)
  | ',' :: rest => some (.comma, rest)
  | '"' :: rest => (literalUnits rest).map fun (units, rest) => (.literal (textOfUnits? units), rest)
  | 'n' :: 'u' :: 'l' :: 'l' :: rest => some (.scalar .null, rest)
  | 't' :: 'r' :: 'u' :: 'e' :: rest => some (.scalar (.bool true), rest)
  | 'f' :: 'a' :: 'l' :: 's' :: 'e' :: rest => some (.scalar (.bool false), rest)
  | '-' :: rest => (number? true rest).map fun (value, rest) => (.scalar value, rest)
  | rest => (number? false rest).map fun (value, rest) => (.scalar value, rest)

/-- The tokens of a text, with fuel for one token each. -/
def tokensWithin : Nat → List Char → Option (List Token)
  | 0, cs => if (cs.dropWhile isBlank).isEmpty then some [] else none
  | fuel + 1, cs =>
    match cs.dropWhile isBlank with
    | [] => some []
    | c :: rest => do
      let (token, rest) ← token? (c :: rest)
      let tokens ← tokensWithin fuel rest
      return token :: tokens

/-- The tokens of a text. A token has at least one character, so the length is fuel enough. -/
def tokens? (cs : List Char) : Option (List Token) := tokensWithin cs.length cs

end ManagedC.Json
