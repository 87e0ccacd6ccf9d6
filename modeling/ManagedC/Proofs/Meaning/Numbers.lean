import ManagedC.CType
import ManagedC.Machine.Value
import ManagedC.Syntax.Operator

/-!
# Signed integers of the source language

A number is an integer that fits its width, which is that of `int` or of `long`. An operation on numbers
has no result where the language leaves it undefined: when the result does not fit, for a division by
zero, and for a shift whose distance is out of range or that moves a negative number to the left. The
rules are written over the integers and know nothing of the machine.
-/

namespace ManagedC.Meaning

/-- The width of a signed integer type. -/
inductive Width where
  /-- That of `int`. -/
  | int
  /-- That of `long`. -/
  | long
  deriving DecidableEq, Inhabited

namespace Width

/-- How many bits there are. -/
def bits : Width → Nat
  | int => 32
  | long => 64

/-- The type of this width. -/
def type : Width → CType
  | int => .int
  | long => .long

/-- The width of a type, if it is `int` or `long`. -/
def of? (type : CType) : Option Width :=
  if type = .int then some int else if type = .long then some long else none

/-- An integer is a value of the width. -/
def Fits (w : Width) (v : Int) : Prop := -2 ^ (w.bits - 1) ≤ v ∧ v < 2 ^ (w.bits - 1)

instance (w : Width) (v : Int) : Decidable (w.Fits v) := inferInstanceAs (Decidable (_ ∧ _))

/-- The width in which two numbers are combined. -/
def join : Width → Width → Width
  | int, int => int
  | _, _ => long

/-- An integer reduced to the width. -/
def wrap (w : Width) (v : Int) : Int := v.bmod (2 ^ w.bits)

variable {w : Width} {v : Int}

theorem fits_int : int.Fits v ↔ -2147483648 ≤ v ∧ v < 2147483648 := Iff.rfl

theorem fits_long : long.Fits v ↔ -9223372036854775808 ≤ v ∧ v < 9223372036854775808 := Iff.rfl

theorem wrap_int (v : Int) : int.wrap v = v.bmod (2 ^ 32) := rfl

theorem wrap_long (v : Int) : long.wrap v = v.bmod (2 ^ 64) := rfl

theorem fits_wrap (w : Width) (v : Int) : w.Fits (w.wrap v) := by
  cases w with
  | int =>
    have hlow := Int.le_bmod (x := v) (m := 2 ^ 32) (by decide)
    have hhigh := Int.bmod_lt (x := v) (m := 2 ^ 32) (by decide)
    rw [fits_int, wrap_int]
    omega
  | long =>
    have hlow := Int.le_bmod (x := v) (m := 2 ^ 64) (by decide)
    have hhigh := Int.bmod_lt (x := v) (m := 2 ^ 64) (by decide)
    rw [fits_long, wrap_long]
    omega

/-- What fits is not changed. -/
theorem wrap_of_fits (h : w.Fits v) : w.wrap v = v := by
  cases w with
  | int =>
    rw [fits_int] at h
    rw [wrap_int]
    exact Int.bmod_eq_of_le (by omega) (by omega)
  | long =>
    rw [fits_long] at h
    rw [wrap_long]
    exact Int.bmod_eq_of_le (by omega) (by omega)

/-- A value of any width fits the greater one. -/
theorem Fits.widen (h : w.Fits v) : long.Fits v := by
  cases w with
  | int =>
    rw [fits_int] at h
    rw [fits_long]
    omega
  | long => exact h

theorem of?_eq_some {type : CType} : of? type = some w ↔ type = w.type := by
  unfold of?
  constructor
  · intro h
    split at h
    · rename_i htype
      cases h
      exact htype
    · split at h
      · rename_i htype
        cases h
        exact htype
      · cases h
  · rintro rfl
    cases w <;> rfl

end Width

/-- A number of the source language. -/
structure Number where
  /-- The width of its type. -/
  width : Width
  /-- The value. -/
  value : Int
  /-- The value is one of the type. -/
  fits : width.Fits value
  deriving DecidableEq

namespace Number

/-- An integer as a number of a width, if it fits. -/
def of? (w : Width) (v : Int) : Option Number :=
  if h : w.Fits v then some ⟨w, v, h⟩ else none

/-- The number that bits stand for. -/
def ofBits (w : Width) (x : BitVec w.bits) : Number where
  width := w
  value := x.toInt
  fits := by
    have hlow := BitVec.le_toInt x
    have hhigh := BitVec.toInt_lt (x := x)
    exact ⟨hlow, hhigh⟩

/-- The bits of a number in a width. -/
def bits (n : Number) (w : Width) : BitVec w.bits := BitVec.ofInt w.bits n.value

/-- A truth value. -/
def ofBool (b : Bool) : Number where
  width := .int
  value := if b then 1 else 0
  fits := by cases b <;> decide

/-- A literal is an `int` if it fits, else a `long`. -/
def literal (v : Int64) : Number :=
  if h : Width.int.Fits v.toInt then ⟨.int, v.toInt, h⟩
  else ⟨.long, v.toInt, Width.fits_long.2 ⟨Int64.le_toInt v, Int64.toInt_lt v⟩⟩

/-- Whether a number counts as true. -/
def isTrue (n : Number) : Bool := n.value != 0

/-- A number converted to a width. What does not fit is reduced. -/
def convert (n : Number) (w : Width) : Number := ⟨w, w.wrap n.value, Width.fits_wrap w n.value⟩

/-- Two numbers combined by an arithmetic operator. They are brought to one width, except for a shift,
which keeps the width of the shifted number. -/
def arithmetic? (op : ArithmeticOp) (a b : Number) : Option Number :=
  let w := a.width.join b.width
  match op with
  | .add => of? w (a.value + b.value)
  | .sub => of? w (a.value - b.value)
  | .mul => of? w (a.value * b.value)
  | .div => if b.value = 0 then none else of? w (a.value.tdiv b.value)
  | .mod =>
    if b.value = 0 ∨ ¬ w.Fits (a.value.tdiv b.value) then none else of? w (a.value.tmod b.value)
  | .bitAnd => some (ofBits w (a.bits w &&& b.bits w))
  | .bitOr => some (ofBits w (a.bits w ||| b.bits w))
  | .bitXor => some (ofBits w (a.bits w ^^^ b.bits w))
  | .shiftLeft =>
    if 0 ≤ a.value ∧ 0 ≤ b.value ∧ b.value < a.width.bits then
      of? a.width (a.value * 2 ^ b.value.toNat)
    else none
  | .shiftRight =>
    if 0 ≤ b.value ∧ b.value < a.width.bits then of? a.width (a.value / 2 ^ b.value.toNat) else none

/-- Whether a comparison holds. -/
def compare (op : ComparisonOp) (a b : Number) : Bool :=
  match op with
  | .eq => a.value == b.value
  | .ne => a.value != b.value
  | .lt => a.value < b.value
  | .gt => b.value < a.value
  | .le => a.value ≤ b.value
  | .ge => b.value ≤ a.value

/-- Two numbers combined by an operator that evaluates both operands. -/
def combine? (op : BinaryOp) (a b : Number) : Option Number :=
  match op with
  | .arithmetic op => arithmetic? op a b
  | .comparison op => some (ofBool (compare op a b))
  | .logical _ => none

/-- An operator applied to a number. -/
def unary? (op : UnaryOp) (a : Number) : Option Number :=
  match op with
  | .negate => of? a.width (-a.value)
  | .bitNot => some (ofBits a.width (~~~a.bits a.width))
  | .logicalNot => some (ofBool (!a.isTrue))
  | .dereference => none

variable {n : Number} {w : Width}

theorem eq_of_of? {v : Int} (h : of? w v = some n) : n.width = w ∧ n.value = v := by
  unfold of? at h
  split at h
  · cases h
    exact ⟨rfl, rfl⟩
  · cases h

theorem fits_widen (n : Number) : Width.long.Fits n.value := n.fits.widen

/-- A number converted to its own width is the number. -/
theorem convert_self (n : Number) : n.convert n.width = n := by
  obtain ⟨w, v, h⟩ := n
  unfold convert
  congr 1
  exact Width.wrap_of_fits h

theorem convert_convert (n : Number) (w : Width) : (n.convert w).convert w = n.convert w :=
  (n.convert w).convert_self

end Number

end ManagedC.Meaning
