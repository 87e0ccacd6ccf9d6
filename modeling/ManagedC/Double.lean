/-!
# Floating-point numbers of 64 bits

A number is kept as its bits, so that everything about it can be reasoned about: one bit of sign,
eleven of exponent and fifty-two of fraction. A finite number is `significand * 2 ^ power`, up to its
sign.
-/

-- Powers of numbers are those of the core library, whichever others are in scope.
attribute [instance (20000), default_instance (20000)] instPowNat

namespace ManagedC

/-- A floating-point number of 64 bits. -/
structure Double where
  /-- Sign, exponent and fraction, the sign in the highest place. -/
  bits : UInt64
  deriving DecidableEq, Inhabited

namespace Double

/-- The number zero. -/
def zero : Double := ⟨0⟩

/-- Whether the sign is a minus. -/
def isNegative (x : Double) : Bool := 2 ^ 63 ≤ x.bits.toNat

/-- The exponent as it is written, from 0 to 2047. -/
def exponent (x : Double) : Nat := x.bits.toNat / 2 ^ 52 % 2 ^ 11

/-- The fraction as it is written. -/
def fraction (x : Double) : Nat := x.bits.toNat % 2 ^ 52

/-- Whether the bits stand for no number. -/
def isNaN (x : Double) : Bool := x.exponent == 2047 && x.fraction != 0

/-- Whether the number is infinite. -/
def isInfinite (x : Double) : Bool := x.exponent == 2047 && x.fraction == 0

/-- Whether the number is zero, of either sign. -/
def isZero (x : Double) : Bool := x.exponent == 0 && x.fraction == 0

/-- The significand of a finite number; the leading one is not written where the exponent is not
zero. -/
def significand (x : Double) : Nat :=
  if x.exponent = 0 then x.fraction else x.fraction + 2 ^ 52

/-- The power of two that goes with the significand. -/
def power (x : Double) : Int := (max x.exponent 1 : Nat) - 1075

/-- Whether two numbers are equal: the zeros are, and what is no number equals nothing. -/
def equals (x y : Double) : Bool :=
  !x.isNaN && !y.isNaN && (x == y || (x.isZero && y.isZero))

/-- The number with the given sign, written exponent and fraction. -/
def ofParts (negative : Bool) (exponent fraction : Nat) : Double :=
  ⟨UInt64.ofNat ((if negative then 2 ^ 63 else 0) + exponent * 2 ^ 52 + fraction)⟩

/-- The infinite number of a sign. -/
def infinity (negative : Bool) : Double := ofParts negative 2047 0

/-- Bits that stand for no number. -/
def nan : Double := ofParts false 2047 (2 ^ 51)

end Double

end ManagedC
