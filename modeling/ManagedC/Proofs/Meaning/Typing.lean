import ManagedC.Proofs.Meaning.Evaluation
import ManagedC.Proofs.Meaning.Operators

/-!
# Numbers under the types of the compiler

The compiler gives a type to the value that the code of an expression leaves. It is the type of the number
that the expression means, or `long` where the number is an `int`: a shift by a `long` distance has the
type of the shifted number in the language, and that of both operands together in the compiler. Since
the machine keeps all numbers in the same way this makes no difference (`Number.Under`). Main statements:
the code of a conversion converts the number (`Activation.follows_coercion`), and operators keep numbers
under the types of their code (`Number.Under.arithmetic`).
-/

namespace ManagedC

namespace Meaning

/-- The type of the target machine for variables of the width. -/
def Width.target : Width → TargetType
  | int => .int32
  | long => .int64

variable {a b c n : Number} {w : Width} {left right type : CType}

theorem Width.target_type (w : Width) : w.type.target = .ok w.target := by
  cases w <;> rfl

theorem Width.type_inj {v w : Width} (h : v.type = w.type) : v = w := by
  cases v <;> cases w <;> first | rfl | cases h

theorem Width.isVoid_type (w : Width) : w.type.isVoid = false := by
  cases w <;> rfl

namespace Number

/-- The number is a value of the type, as the compiler sees it. -/
def Under (n : Number) (type : CType) : Prop := type = n.width.type ∨ type = .long

namespace Under

/-- Only two types occur. -/
theorem type_eq (h : n.Under type) : ∃ w : Width, type = w.type := by
  rcases h with rfl | rfl
  · exact ⟨_, rfl⟩
  · exact ⟨.long, rfl⟩

theorem isPointer (h : n.Under type) : type.isPointer = false := by
  obtain ⟨w, rfl⟩ := h.type_eq
  cases w <;> rfl

theorem isVoid (h : n.Under type) : type.isVoid = false := by
  obtain ⟨w, rfl⟩ := h.type_eq
  exact w.isVoid_type

/-- A number under a type that is not `long` is an `int`. -/
theorem width_of_isLong (h : n.Under type) (htype : type.isLong = false) : n.width = .int := by
  rcases h with rfl | rfl
  · cases hw : n.width with
    | int => rfl
    | long =>
      rw [hw] at htype
      cases htype
  · cases htype

end Under

/-- The result of an arithmetic operator on two `int` operands is an `int`. -/
theorem width_of_arithmetic? {op : ArithmeticOp} (h : arithmetic? op a b = some c)
    (ha : a.width = .int) (hb : b.width = .int) : c.width = .int := by
  have hjoin : a.width.join b.width = .int := by rw [ha, hb]; rfl
  unfold arithmetic? at h
  rw [hjoin] at h
  cases op with
  | add | sub | mul => exact (eq_of_of? h).1
  | div | mod =>
    dsimp only at h
    split at h
    · cases h
    · exact (eq_of_of? h).1
  | bitAnd | bitOr | bitXor =>
    cases h
    rfl
  | shiftLeft | shiftRight =>
    dsimp only at h
    split at h
    · exact (eq_of_of? h).1.trans ha
    · cases h

/-- What an arithmetic operator makes of two numbers is under the type of its code. -/
theorem Under.arithmetic {op : ArithmeticOp} (ha : a.Under left) (hb : b.Under right)
    (h : arithmetic? op a b = some c) : c.Under (CType.arithmeticResult left right) := by
  unfold CType.arithmeticResult
  cases hlong : left.isLong || right.isLong with
  | true => exact .inr rfl
  | false =>
    obtain ⟨hl, hr⟩ := Bool.or_eq_false_iff.1 hlong
    have hc := width_of_arithmetic? h (ha.width_of_isLong hl) (hb.width_of_isLong hr)
    exact .inl (by rw [hc]; rfl)

/-- What an operator makes of one number is under the type of its code. -/
theorem Under.unary (ha : a.Under type) (h : b.width = a.width) :
    b.Under (CType.arithmeticResult type type) := by
  unfold CType.arithmeticResult
  cases hlong : type.isLong with
  | true => exact .inr rfl
  | false => exact .inl (by rw [h, ha.width_of_isLong hlong]; rfl)

/-- What an operator makes of two numbers is under the type of its code. -/
theorem Under.binary {op : BinaryOp} {slot : UInt16} {ts : List TargetType} {code : List Instruction}
    (hcode : OperatorCode slot op left right ts code type) (ha : a.Under left) (hb : b.Under right)
    (h : combine? op a b = some c) : c.Under type := by
  cases hcode with
  | compareIntegers | comparePointers =>
    cases h
    exact .inl rfl
  | integers => exact ha.arithmetic hb h
  | movePointer _ hp =>
    rw [ha.isPointer] at hp
    cases hp
  | stepsFirst _ _ _ hp =>
    rw [hb.isPointer] at hp
    cases hp
  | difference => exact .inr rfl

/-- The instructions of an operator compute its result. -/
theorem onWords?_of_combine? {op : BinaryOp} (h : combine? op a b = some c) :
    onWords? op a.toInt64 b.toInt64 = some c.toInt64 := by
  cases op with
  | arithmetic op =>
    show (op.instr.onInts a.toInt64 b.toInt64).toOption = _
    rw [onInts_of_arithmetic? h]
    rfl
  | comparison op =>
    cases h
    have hvalue := toValue_ofBool (compare op a b)
    show some (if op.instr.1.onInts a.toInt64 b.toInt64 != op.instr.2 then 1 else 0) = _
    rw [onInts_compare]
    exact congrArg some (Value.int.inj hvalue).symm
  | logical op => cases h

/-- A literal is kept as it is written. -/
theorem toInt64_literal (v : Int64) : (literal v).toInt64 = v := by
  unfold literal
  split <;> exact Int64.ofInt_toInt v

/-- A literal that the compiler takes for an `int` is one. -/
theorem width_literal {v : Int64} (h : v.toInt32.toInt64 = v) : (literal v).width = .int := by
  have hfits : Width.int.Fits v.toInt := by
    rw [← h, Int32.toInt_toInt64, Width.fits_int]
    exact ⟨Int32.le_toInt _, Int32.toInt_lt _⟩
  unfold literal
  rw [dif_pos hfits]

/-- A variable keeps the number that it is given. -/
theorem narrow_convert (n : Number) (w : Width) :
    (n.convert w).toValue.narrow w.target = (n.convert w).toValue := by
  cases w with
  | int =>
    show Value.int _ = Value.int _
    rw [Width.target, narrow_int, convert_convert]
  | long => rfl

end Number

end Meaning

namespace Activation

open Meaning

variable {a : Activation} {n : Number} {type : CType} {rest : List Value}

/-- The code of a conversion converts a number. -/
theorem follows_coercion (hn : n.Under type) (w : Width) (ha : a.stack = n.toValue :: rest)
    (s : Store) : a.Follows s (coercion type w.type) { a with
      stack := (n.convert w).toValue :: rest
      pc := a.pc + (coercion type w.type).length } := by
  have hpointer : type.isPointer = false ∧ w.type.isPointer = false :=
    ⟨hn.isPointer, by cases w <;> rfl⟩
  have hkept : w.Fits n.value → (n.convert w).toValue = n.toValue :=
    fun h => congrArg Value.int (Number.toInt64_convert h)
  by_cases heq : type = w.type
  · have hfits : w.Fits n.value := by
      rcases hn with htype | htype
      · rw [Width.type_inj (heq.symm.trans htype)]
        exact n.fits
      · rw [Width.type_inj (w := .long) (heq.symm.trans htype)]
        exact n.fits_widen
    have hcode : coercion type w.type = [] := by
      unfold coercion
      rw [if_pos (by simp [heq])]
    rw [hcode, hkept hfits, ← ha]
    exact .nil
  · cases w with
    | long =>
      have hint : type = .int := by
        obtain ⟨v, rfl⟩ := hn.type_eq
        cases v with
        | int => rfl
        | long => exact absurd rfl heq
      rw [hint, hkept n.fits_widen]
      exact .cons rfl (.onTop rfl ha rfl) rfl .nil
    | int =>
      have hlong : type = .long := by
        obtain ⟨v, rfl⟩ := hn.type_eq
        cases v with
        | int => exact absurd rfl heq
        | long => rfl
      have hnarrow : (n.convert .int).toValue = .int (TargetType.int32.narrow n.toInt64) :=
        congrArg Value.int n.narrow_int.symm
      rw [hlong, hnarrow]
      exact .cons rfl (.onTop rfl ha rfl) rfl .nil

end Activation

end ManagedC
