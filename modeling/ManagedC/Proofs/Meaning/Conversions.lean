import ManagedC.CType
import ManagedC.Syntax.Operator

/-!
# The usual arithmetic conversions

Two integers are brought to one type before they are combined: a type narrower than `int` is promoted to
`int`, the wider of two types wins, and of two types of one width the one without a sign. In a signed type
an operation has no result when the result does not fit; in an unsigned type the result is reduced. The
rules are written over the integers and know nothing of the machine.
-/

namespace ManagedC.Meaning

/-- How the values of an integer type are written. -/
structure IntegerFormat where
  /-- In so many bits. -/
  bits : Nat
  /-- Whether one of them is a sign. -/
  signed : Bool
  /-- There are types of this size. -/
  usual : bits = 8 ∨ bits = 16 ∨ bits = 32 ∨ bits = 64
  deriving DecidableEq

namespace IntegerFormat

/-- The format of an integer type. A plain `char` has no sign. -/
def of? : CType → Option IntegerFormat
  | .primitive .char | .primitive .unsignedChar => some ⟨8, false, by decide⟩
  | .primitive .signedChar => some ⟨8, true, by decide⟩
  | .primitive .short => some ⟨16, true, by decide⟩
  | .primitive .unsignedShort => some ⟨16, false, by decide⟩
  | .primitive .int => some ⟨32, true, by decide⟩
  | .primitive .unsignedInt => some ⟨32, false, by decide⟩
  | .primitive .long => some ⟨64, true, by decide⟩
  | .primitive .unsignedLong => some ⟨64, false, by decide⟩
  | _ => none

/-- The least value. -/
def least (f : IntegerFormat) : Int := if f.signed then -2 ^ (f.bits - 1) else 0

/-- What is above all values. -/
def bound (f : IntegerFormat) : Int := if f.signed then 2 ^ (f.bits - 1) else 2 ^ f.bits

/-- An integer is a value of the format. -/
def Holds (f : IntegerFormat) (v : Int) : Prop := f.least ≤ v ∧ v < f.bound

instance (f : IntegerFormat) (v : Int) : Decidable (f.Holds v) := inferInstanceAs (Decidable (_ ∧ _))

/-- An integer reduced to the format. -/
def reduce (f : IntegerFormat) (v : Int) : Int :=
  if f.signed then v.bmod (2 ^ f.bits) else v % 2 ^ f.bits

/-- The format after the integer promotions. -/
def promote (f : IntegerFormat) : IntegerFormat :=
  if f.bits < 32 then ⟨32, true, by decide⟩ else f

/-- The format to which two integers are brought. -/
def join (f g : IntegerFormat) : IntegerFormat :=
  if f.promote.bits < g.promote.bits then g.promote
  else if g.promote.bits < f.promote.bits then f.promote
  else if f.promote.signed then g.promote else f.promote

/-- What an operation of the format comes to that comes to an integer. -/
def result? (f : IntegerFormat) (v : Int) : Option Int :=
  if f.signed = true ∧ ¬ f.Holds v then none else some (f.reduce v)

/-- The integer that bits stand for. -/
def ofBits (f : IntegerFormat) (x : BitVec f.bits) : Int := if f.signed then x.toInt else x.toNat

/-- Two integers of the format combined. The distance of a shift may be of another one. -/
def arithmetic? (f : IntegerFormat) (op : ArithmeticOp) (a b : Int) : Option Int :=
  match op with
  | .add => f.result? (a + b)
  | .sub => f.result? (a - b)
  | .mul => f.result? (a * b)
  | .div => if b = 0 then none else f.result? (a.tdiv b)
  | .mod => if b = 0 ∨ f.result? (a.tdiv b) = none then none else some (a.tmod b)
  | .bitAnd => some (f.ofBits (.ofInt f.bits a &&& .ofInt f.bits b))
  | .bitOr => some (f.ofBits (.ofInt f.bits a ||| .ofInt f.bits b))
  | .bitXor => some (f.ofBits (.ofInt f.bits a ^^^ .ofInt f.bits b))
  | .shiftLeft =>
    if 0 ≤ b ∧ b < f.bits ∧ (f.signed = true → 0 ≤ a) then f.result? (a * 2 ^ b.toNat) else none
  | .shiftRight => if 0 ≤ b ∧ b < f.bits then some (a / 2 ^ b.toNat) else none

/-- The format in which an arithmetic operator combines integers of two formats. A shift keeps that of
the shifted integer. -/
def common (op : ArithmeticOp) (f g : IntegerFormat) : IntegerFormat :=
  match op with
  | .shiftLeft | .shiftRight => f.promote
  | _ => f.join g

/-- The right operand as an arithmetic operator takes it. -/
def rightOperand (op : ArithmeticOp) (f g : IntegerFormat) (y : Int) : Int :=
  match op with
  | .shiftLeft | .shiftRight => y
  | _ => (f.join g).reduce y

end IntegerFormat

/-- Whether a comparison holds. -/
def holds (op : ComparisonOp) (a b : Int) : Bool :=
  match op with
  | .eq => a == b
  | .ne => a != b
  | .lt => a < b
  | .gt => b < a
  | .le => a ≤ b
  | .ge => b ≤ a

/-- What the language makes of two integers of two formats, if it says anything. -/
def combined? (op : BinaryOp) (f g : IntegerFormat) (x y : Int) : Option Int :=
  match op with
  | .arithmetic op =>
    (f.common op g).arithmetic? op ((f.common op g).reduce x) (f.rightOperand op g y)
  | .comparison op =>
    some (if holds op ((f.join g).reduce x) ((f.join g).reduce y) then 1 else 0)
  | .logical _ => none

/-! ## Values in wider formats -/

namespace IntegerFormat

/-- A format is narrower, or it differs at most by a sign that the other one has not. -/
def Below (f k : IntegerFormat) : Prop :=
  f.bits < k.bits ∨ (f.bits = k.bits ∧ (k.signed = true → f.signed = true))

variable {f g k : IntegerFormat} {v : Int}

theorem holds_signed (hf : f.signed = true) :
    f.Holds v ↔ -2 ^ (f.bits - 1) ≤ v ∧ v < 2 ^ (f.bits - 1) := by
  unfold Holds least bound
  rw [if_pos hf, if_pos hf]

theorem holds_unsigned (hf : f.signed = false) : f.Holds v ↔ 0 ≤ v ∧ v < 2 ^ f.bits := by
  unfold Holds least bound
  rw [hf]
  rfl

theorem bits_promote (f : IntegerFormat) : f.promote.bits = 32 ∨ f.promote.bits = 64 := by
  have := f.usual
  unfold promote
  split
  · exact .inl rfl
  · omega

theorem bits_join (f g : IntegerFormat) : (f.join g).bits = 32 ∨ (f.join g).bits = 64 := by
  unfold join
  repeat' split
  all_goals exact bits_promote _

theorem below_promote (f : IntegerFormat) : f.Below f.promote := by
  unfold promote Below
  split
  · rename_i h
    exact .inl h
  · exact .inr ⟨rfl, id⟩

theorem Below.trans (h : f.Below g) (h' : g.Below k) : f.Below k := by
  unfold Below at *
  rcases h with h | ⟨h, hs⟩
  · left
    rcases h' with h' | ⟨h', -⟩ <;> omega
  · rcases h' with h' | ⟨h', hs'⟩
    · left
      omega
    · exact .inr ⟨by omega, fun hk => hs (hs' hk)⟩

theorem below_join_left (f g : IntegerFormat) : f.Below (f.join g) := by
  refine (below_promote f).trans ?_
  unfold join
  split
  · rename_i h
    exact .inl h
  · split
    · exact .inr ⟨rfl, id⟩
    · split
      · rename_i hs
        exact .inr ⟨by omega, fun _ => hs⟩
      · exact .inr ⟨rfl, id⟩

theorem below_join_right (f g : IntegerFormat) : g.Below (f.join g) := by
  refine (below_promote g).trans ?_
  unfold join
  split
  · exact .inr ⟨rfl, id⟩
  · split
    · rename_i h
      exact .inl h
    · split
      · exact .inr ⟨rfl, id⟩
      · rename_i hs
        exact .inr ⟨by omega, fun h => absurd h hs⟩

/-- A value of a format is one of each above it, unless it is negative and they have no sign. -/
theorem Holds.above (h : f.Holds v) (hfk : f.Below k) (hs : k.signed = true ∨ 0 ≤ v) : k.Holds v := by
  obtain ⟨b, s, hb⟩ := f
  obtain ⟨b', s', hb'⟩ := k
  unfold Holds least bound at *
  unfold Below at hfk
  dsimp only at *
  rcases hb with rfl | rfl | rfl | rfl <;> rcases hb' with rfl | rfl | rfl | rfl <;>
    cases s <;> cases s' <;> simp at * <;> omega

/-- A value of the format is not changed. -/
theorem reduce_of_holds (h : f.Holds v) : f.reduce v = v := by
  obtain ⟨b, s, hb⟩ := f
  unfold Holds least bound at h
  unfold reduce
  dsimp only at *
  cases s with
  | false =>
    simp only [Bool.false_eq_true, if_false] at h ⊢
    exact Int.emod_eq_of_lt h.1 h.2
  | true =>
    simp only [if_true] at h ⊢
    rcases hb with rfl | rfl | rfl | rfl <;> exact Int.bmod_eq_of_le (by omega) (by omega)

end IntegerFormat

end ManagedC.Meaning
