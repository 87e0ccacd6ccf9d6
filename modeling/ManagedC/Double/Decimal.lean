import ManagedC.Double
import ManagedC.Text

/-!
# Floating-point numbers in decimal

A number is written with the fewest digits that read back as the same number, and of those the
nearest to it; of two that are equally near, the larger one. It is written without an exponent,
and without a point if it is a whole number. Reading takes any decimal and rounds it to the nearest
number, a tie to the even one.
-/

namespace ManagedC.Double

open Text (isDigit natOfDigits)

/-! ## Writing -/

/-- The fractions `n / d` for which `n * 10 ^ ten` and `m * 2 ^ two` compare like `n * d.1` and
`m * d.2`. -/
def commonScale (ten two : Int) : Nat × Nat :=
  (10 ^ ten.toNat * 2 ^ (-two).toNat, 2 ^ two.toNat * 10 ^ (-ten).toNat)

/-- Four times the distances from a number to the bounds of the numbers that round to it, in units
of its last place. The lower one is shorter where the exponent changes below the number. -/
def marginBelow (x : Double) : Nat := if x.fraction = 0 && 1 < x.exponent then 1 else 2

/-- Whether `n * 10 ^ ten` rounds to a number. The bounds themselves do if the significand is
even. -/
def isRead (x : Double) (n : Nat) (ten : Int) : Bool :=
  let (a, b) := commonScale ten (x.power - 2)
  let low := (4 * x.significand - x.marginBelow) * b
  let high := (4 * x.significand + 2) * b
  if x.significand % 2 = 0 then low ≤ n * a && n * a ≤ high else low < n * a && n * a < high

/-- The multiple of `10 ^ ten` that is nearest to a number among the two next to it that round to
the number, as the factor. -/
def nearestRead? (x : Double) (ten : Int) : Option Nat :=
  let (a, b) := commonScale ten (x.power - 2)
  let value := 4 * x.significand * b
  let below := value / a
  match x.isRead below ten, x.isRead (below + 1) ten with
  | false, false => none
  | true, false => some below
  | false, true => some (below + 1)
  | true, true => if value - below * a < (below + 1) * a - value then some below else some (below + 1)

/-- The first of the given powers of ten, counted down from the top, that has a multiple which
rounds to a number, with that multiple's factor. -/
def shortestFrom (x : Double) : Nat → Int → Nat × Int
  | 0, ten => (0, ten)
  | steps + 1, ten =>
    match x.nearestRead? ten with
    | some n => (n, ten)
    | none => shortestFrom x steps (ten - 1)

/-- The shortest decimal `n * 10 ^ ten` that rounds to a finite number other than zero. No number
reaches `10 ^ 309`, and every number is a multiple of `10 ^ (-1074)`. -/
def shortest (x : Double) : Nat × Int := x.shortestFrom 1384 309

/-- The text of `n * 10 ^ ten` without an exponent. -/
def positional (n : Nat) (ten : Int) : String :=
  let digits := Nat.toDigits 10 n
  if 0 ≤ ten then String.ofList (digits ++ List.replicate ten.toNat '0')
  else
    let places := (-ten).toNat
    let padded := List.replicate (places + 1 - digits.length) '0' ++ digits
    let whole := padded.length - places
    String.ofList (padded.take whole ++ '.' :: padded.drop whole)

/-- The text of a number. -/
def text (x : Double) : String :=
  if x.isNaN then "NaN"
  else
    let sign := if x.isNegative then "-" else ""
    if x.isInfinite then sign ++ "inf"
    else if x.isZero then sign ++ "0"
    else sign ++ positional x.shortest.1 x.shortest.2

/-! ## Reading -/

/-- The quotient of two numbers, rounded to the nearest whole number, a tie to the even one. -/
def roundedQuotient (n d : Nat) : Nat :=
  let q := n / d
  let rest := 2 * (n % d)
  if rest < d || (rest = d && q % 2 = 0) then q else q + 1

/-- The largest power of two that does not exceed a fraction. -/
def binaryOrder (n d : Nat) : Int :=
  let guess : Int := (Nat.log2 n : Int) - Nat.log2 d
  if n * 2 ^ (-guess).toNat < d * 2 ^ guess.toNat then guess - 1 else guess

/-- The number nearest to a positive fraction. -/
def ofFraction (negative : Bool) (n d : Nat) : Double :=
  let power : Int := max (binaryOrder n d - 52) (-1074)
  let m := roundedQuotient (n * 2 ^ (-power).toNat) (d * 2 ^ power.toNat)
  -- A significand that needs no leading one, or has grown a digit too long, carries over.
  let written : Nat := (power + 1074).toNat * 2 ^ 52 + m
  if 2047 * 2 ^ 52 ≤ written then infinity negative
  else ofParts negative (written / 2 ^ 52) (written % 2 ^ 52)

/-- The number nearest to `n * 10 ^ ten`. Beyond four hundred places it is infinite, or zero. -/
def ofDecimal (negative : Bool) (n : Nat) (ten : Int) : Double :=
  let order := ten + (Nat.toDigits 10 n).length
  if n = 0 || order < -400 then ofParts negative 0 0
  else if 400 < order then infinity negative
  else ofFraction negative (n * 10 ^ ten.toNat) (10 ^ (-ten).toNat)

/-- A sign, if there is one, and what follows it. -/
def signAndRest : List Char → Bool × List Char
  | '-' :: rest => (true, rest)
  | '+' :: rest => (false, rest)
  | rest => (false, rest)

/-- The exponent that a text consists of; no text stands for none. -/
def exponentOf? : List Char → Option Int
  | [] => some 0
  | c :: rest =>
    if c = 'e' || c = 'E' then
      let (negative, digits) := signAndRest rest
      if digits.isEmpty || !digits.all isDigit then none
      else some (if negative then -(natOfDigits digits : Int) else natOfDigits digits)
    else none

/-- The digits after a point, if there is one, and what follows them. -/
def placesAndRest : List Char → List Char × List Char
  | '.' :: rest => (rest.takeWhile isDigit, rest.dropWhile isDigit)
  | rest => ([], rest)

/-- The number that a decimal text without a sign stands for. There must be a digit before or after
the point. -/
def ofUnsigned? (negative : Bool) (cs : List Char) : Option Double := do
  let whole := cs.takeWhile isDigit
  let (places, rest) := placesAndRest (cs.dropWhile isDigit)
  if whole.isEmpty && places.isEmpty then none
  let exponent ← exponentOf? rest
  return ofDecimal negative (natOfDigits (whole ++ places)) (exponent - places.length)

/-- The number that a text stands for. Infinity and what is no number are written by name, in any
case. -/
def ofText? (text : String) : Option Double :=
  let (negative, cs) := signAndRest text.toList
  let word := String.ofList (cs.map Char.toLower)
  if word = "inf" || word = "infinity" then some (infinity negative)
  else if word = "nan" then some nan
  else ofUnsigned? negative cs

end ManagedC.Double
