import ManagedC.Proofs.Meaning.Operators
import ManagedC.Proofs.Pointers.Pieces

/-!
# What operators make of values

The code of an operator makes of any two values what `BinaryOp.combine` says, whether they are integers,
pointers or something else: the index of a pointer is multiplied by the size of a step, above the pointer or
below it; integers are brought to one type; the distance of two pointers is divided by the size of a step.
Main statements: `Setting.Has.computes_operator`, `Setting.Course.Settles.operator`.
-/

namespace ManagedC

open Instruction

/-! ## Operations on values -/

namespace Value

/-- A number or pointer as it is; nothing else is one. -/
def native (v : Value) : Except Fault.Kind Value := (Activation.toNative v).mapError Fault.kind

/-- Two values combined by an operation of the machine. -/
def operate (op : BinaryInstr) (v w : Value) : Except Fault.Kind Value :=
  (op.apply v w).mapError Fault.kind

/-- Two values compared by the machine. -/
def compare (op : CompareInstr) (v w : Value) : Except Fault.Kind Value :=
  ((fun b => .int (if b then 1 else 0)) <$> op.apply v w).mapError Fault.kind

/-- A number of steps in bytes. -/
def scale (size : Int32) (v : Value) : Except Fault.Kind Value := do
  let v ← v.native
  if size = 1 then .ok v else operate .mul v (.int size.toInt64)

/-- A number of bytes in steps. -/
def unscale (size : Int32) (v : Value) : Except Fault.Kind Value := do
  let v ← if size = 1 then .ok v else operate .div v (.int size.toInt64)
  v.native

/-- Two values compared by an operator. -/
def order (op : ComparisonOp) (v w : Value) : Except Fault.Kind Value := do
  let b ← compare op.instr.1 v w
  if op.instr.2 then compare .ceq b (.int 0) else .ok b

end Value

/-- The size of a step of a pointer of the type. -/
def CType.stepSize (type : CType) : Int32 :=
  ((type.target?.bind CType.size?).map Int32.ofNat).getD 1

theorem CType.Steps.stepSize {pointer : CType} {size : Int32} (h : pointer.Steps size) :
    pointer.stepSize = size := by
  obtain ⟨n, hn, -, rfl⟩ := h
  unfold CType.stepSize
  rw [hn]
  rfl

/-- The right one of two integers, brought to their common type. -/
def CType.unifyRight (left right : CType) (w : Value) : Except Fault.Kind Value :=
  if (arithmeticResult left right).isLong && !right.isLong then w.native else .ok w

/-- The left one of two integers, brought to their common type. -/
def CType.unifyLeft (left right : CType) (v : Value) : Except Fault.Kind Value :=
  if (arithmeticResult left right).isLong && !left.isLong then v.native else .ok v

/-- What an operator on operands of two types makes of two values. -/
def BinaryOp.combine (op : BinaryOp) (left right : CType) (v w : Value) : Except Fault.Kind Value :=
  match op, left.isPointer, right.isPointer with
  | .logical _, _, _ => .error .invalidProgram
  | .comparison op, false, false => do
    let w ← left.unifyRight right w
    let v ← left.unifyLeft right v
    v.order op w
  | .comparison op, _, _ => v.order op w
  | .arithmetic op, false, false => do
    let w ← left.unifyRight right w
    let v ← left.unifyLeft right v
    v.operate op.instr w
  | .arithmetic op, true, false => do
    let w ← w.scale left.stepSize
    v.operate op.instr w
  | .arithmetic _, false, true => do
    let v ← v.scale right.stepSize
    v.operate .add w
  | .arithmetic _, true, true => do
    let v ← v.operate .sub w
    v.unscale left.stepSize

/-- The type of what an operator makes of operands of two types. -/
def BinaryOp.resultType (op : BinaryOp) (left right : CType) : CType :=
  match op, left.isPointer, right.isPointer with
  | .logical _, _, _ | .comparison _, _, _ => .int
  | .arithmetic _, false, false => .arithmeticResult left right
  | .arithmetic _, true, false => left
  | .arithmetic _, false, true => right
  | .arithmetic _, true, true => .long

/-- The type of the result is determined by those of the operands. -/
theorem OperatorCode.type_eq {slot : UInt16} {op : BinaryOp} {left right type : CType}
    {ts : List TargetType} {code : List Instruction} (h : OperatorCode slot op left right ts code type) :
    type = op.resultType left right := by
  unfold BinaryOp.resultType
  cases h with
  | compareIntegers | comparePointers => rfl
  | integers hl hr => rw [CType.isPointer_of_isInteger hl, CType.isPointer_of_isInteger hr]
  | movePointer size hl hr => rw [hl, CType.isPointer_of_isInteger hr]
  | stepsFirst size stored hl hr => rw [CType.isPointer_of_isInteger hl, hr]
  | difference size hl hr => rw [hl, hr]

/-! ## The code of operators -/

namespace Instruction

variable {store : Store}

theorem maps_native : Maps store [.convNative] Value.native := maps_onTop rfl

theorem maps_long : Maps store [.convInt64] Value.native := maps_onTop rfl

theorem combines_operate (op : BinaryInstr) : Combines store [.binary op] (Value.operate op) :=
  combines_onTop2 rfl

theorem combines_compare (op : CompareInstr) : Combines store [.compare op] (Value.compare op) :=
  combines_onTop2 rfl

theorem maps_constant (size : Int32) (op : BinaryInstr) :
    Maps store [.constInt32 size, .convNative, .binary op] fun v => v.operate op (.int size.toInt64) :=
  (maps_native.combines (combines_operate op)).constant size

theorem maps_scaling (size : Int32) : Maps store (scaling size) (Value.scale size) := by
  unfold scaling Value.scale
  by_cases hone : size = 1
  · simp only [hone, ne_eq, not_true_eq_false, if_false, if_true]
    exact maps_native.append maps_nil
  · simp only [hone, ne_eq, not_false_eq_true, if_true, if_false]
    exact maps_native.append (maps_constant size .mul)

theorem maps_unscaling (size : Int32) : Maps store (unscaling size ++ [.convInt64]) (Value.unscale size) := by
  unfold unscaling Value.unscale
  by_cases hone : size = 1
  · simp only [hone, ne_eq, not_true_eq_false, if_false, if_true]
    exact maps_nil.append maps_long
  · simp only [hone, ne_eq, not_false_eq_true, if_true, if_false]
    exact (maps_constant size .div).append maps_long

theorem combines_comparison (op : ComparisonOp) : Combines store (comparisonCode op) (Value.order op) := by
  unfold comparisonCode Value.order
  cases op.instr.2 with
  | false => exact (combines_compare op.instr.1).append maps_nil
  | true => exact (combines_compare op.instr.1).append ((combines_compare .ceq).constant 0)

end Instruction

theorem Value.narrow_word (v : Value) : v.narrow .int64 = v := by
  cases v <;> rfl

theorem Value.narrow_pointer (v : Value) (stored : TargetType) : v.narrow (.pointer stored) = v := by
  cases v <;> rfl

/-- The type of a pointer is a type of pointers. -/
theorem CType.target_pointer {element : CType} {type : TargetType}
    (h : (CType.pointer element).target = .ok type) : ∃ stored, type = .pointer stored := by
  unfold target at h
  split at h
  · rename_i heq
    cases heq
  · exact ⟨_, (Except.pure_eq_ok.1 h).symm⟩
  · obtain ⟨stored, -, rfl⟩ := Except.map_eq_ok.1 h
    exact ⟨stored, rfl⟩
  · cases h

namespace Setting.Has

variable {E : Setting} {u : Scope} {a : Activation} {rest : List Value} {v w : Value}
  {code last : List Instruction} {ts : List TargetType} {left right type : CType} {op : BinaryOp}
  {g : Value → Value → Except Fault.Kind Value}

/-- Two integers are brought to one type, and then combined. -/
theorem computes_unified (ha : E.Has u a)
    (hM : (u.append (unificationTemporaries left right)
      (unification left right u.nextSlot ++ last)).assembler.method.Extends a.method)
    (hlast : Combines E.store last g) (hstack : a.stack = w :: v :: rest) :
    E.Computes a (u.append (unificationTemporaries left right) (unification left right u.nextSlot ++ last))
      rest (do
        let w ← left.unifyRight right w
        let v ← left.unifyLeft right v
        g v w) := by
  unfold unification unificationTemporaries CType.unifyRight CType.unifyLeft at *
  cases hlong : (CType.arithmeticResult left right).isLong with
  | false =>
    rw [hlong] at hM
    exact ha.computes_straight hM (hlast a v w rest hstack)
  | true =>
    rw [hlong] at hM
    cases hl : left.isLong with
    | true =>
      rw [hl] at hM
      cases hr : right.isLong with
      | true =>
        rw [hr] at hM
        exact ha.computes_straight hM (hlast a v w rest hstack)
      | false =>
        rw [hr] at hM
        exact ha.computes_straight hM (maps_long.combines hlast a v w rest hstack)
    | false =>
      rw [hl] at hM
      cases hr : right.isLong with
      | true =>
        rw [hr] at hM
        exact ha.computes_under [] [.convInt64] last hM Value.narrow_word maps_nil maps_long hlast hstack
      | false =>
        rw [hr] at hM
        exact ha.computes_under [.convInt64] [.convInt64] last hM Value.narrow_word maps_long maps_long hlast
          hstack

/-- The code of an operator makes of two values what the operator makes of them. -/
theorem computes_operator (ha : E.Has u a) (hcode : OperatorCode u.nextSlot op left right ts code type)
    (hM : (u.append ts code).assembler.method.Extends a.method) (hstack : a.stack = w :: v :: rest) :
    E.Computes a (u.append ts code) rest (op.combine left right v w) := by
  cases hcode with
  | compareIntegers hl hr =>
    unfold BinaryOp.combine
    rw [CType.isPointer_of_isInteger hl, CType.isPointer_of_isInteger hr]
    exact ha.computes_unified hM (combines_comparison _) hstack
  | integers hl hr =>
    unfold BinaryOp.combine
    rw [CType.isPointer_of_isInteger hl, CType.isPointer_of_isInteger hr]
    exact ha.computes_unified hM (combines_operate _) hstack
  | @comparePointers op _ _ _ _ hpointer =>
    have hcombine : (BinaryOp.comparison op).combine left right v w = v.order op w := by
      unfold BinaryOp.combine
      rcases hpointer with hp | hp
      · rw [hp]
      · rw [hp]
        cases left.isPointer <;> rfl
    rw [hcombine]
    exact ha.computes_straight hM
      (combines_comparison op a v w rest hstack)
  | movePointer size hl hr hsteps =>
    unfold BinaryOp.combine
    rw [hl, CType.isPointer_of_isInteger hr, hsteps.stepSize]
    exact ha.computes_straight hM
      ((maps_scaling size).combines (combines_operate _) a v w rest hstack)
  | stepsFirst size stored hl hr hsteps htarget =>
    unfold BinaryOp.combine
    rw [CType.isPointer_of_isInteger hl, hr, hsteps.stepSize]
    obtain ⟨element, rfl⟩ : ∃ element, right = .pointer element := by
      cases right <;> first | exact ⟨_, rfl⟩ | cases hr
    obtain ⟨type, rfl⟩ := CType.target_pointer htarget
    have hsplit : .storeLocal u.nextSlot :: scaling size ++ [.loadLocal u.nextSlot, .binary .add] =
        [] ++ (.storeLocal u.nextSlot :: (scaling size ++ (.loadLocal u.nextSlot :: [.binary .add]))) := by
      simp
    rw [hsplit] at hM ⊢
    exact ha.computes_under [] (scaling size) [.binary .add] hM (fun v => v.narrow_pointer type) maps_nil
      (maps_scaling size) (combines_operate .add) hstack
  | difference size hl hr hsteps =>
    unfold BinaryOp.combine
    rw [hl, hr, hsteps.stepSize]
    exact ha.computes_straight hM
      ((combines_operate .sub).append (maps_unscaling size) a v w rest hstack)

end Setting.Has

namespace Setting.Course

variable {E : Setting} {ε : Type} {C : E.Course ε} {span : Span} {op : BinaryOp} {x y : Expression}
  {left right element : CType} {first second : Except ε Value}

section

variable {u v t : Scope} {a : Activation} {type : CType} {ts : List TargetType} {code : List Instruction}

/-- What an operator makes of a value and that of the expression behind it. -/
theorem operate {rest : List Value} {v : Value} (hy : C.Settles (.value y) right second)
    (hright : Emission.Code u (.value y right) t)
    (hoperator : OperatorCode t.nextSlot op left right ts code type)
    (hM : (t.append ts code).assembler.method.Extends a.method) (ha : E.Has u a)
    (hstack : a.stack = v :: rest) :
    C.Meets a (t.append ts code) rest (do C.lift (op.combine left right v (← second))) := by
  have htM := (Scope.emits_append t ts hoperator.isPlain).extends hM
  refine C.bind (hy.meets hright ha htM) fun w b _ hb hmethod hstack' => ?_
  rw [← hmethod] at hM
  exact C.computes (hb.computes_operator hoperator hM (hstack'.trans (congrArg _ hstack)))

/-- What an operator makes of the values of two expressions. -/
theorem operands (hx : C.Settles (.value x) left first) (hy : C.Settles (.value y) right second)
    (hleft : Emission.Code u (.value x left) v) (hright : Emission.Code v (.value y right) t)
    (hoperator : OperatorCode t.nextSlot op left right ts code type)
    (hM : (t.append ts code).assembler.method.Extends a.method) (ha : E.Has u a) :
    C.Meets a (t.append ts code) a.stack (do C.lift (op.combine left right (← first) (← second))) := by
  have htM := (Scope.emits_append t ts hoperator.isPlain).extends hM
  refine C.bind (hx.meets hleft ha (hright.emits.extends htM)) fun x b _ hb hmethod hstack => ?_
  rw [← hmethod] at hM
  exact operate hy hright hoperator hM hb hstack

end

namespace Settles

/-- An operator and two expressions. -/
theorem operator (hlogical : ∀ op', op ≠ .logical op') (hx : C.Settles (.value x) left first)
    (hy : C.Settles (.value y) right second) :
    C.Settles (.value (.binary span op x y)) (op.resultType left right)
      (do C.lift (op.combine left right (← first) (← second))) := by
  constructor
  · intro u t type hu hcode
    cases hcode with
    | binary hleft hright hoperator =>
      obtain rfl := hx.typed hu hleft
      obtain rfl := hy.typed (hu.emits hleft.emits) hright
      exact hoperator.type_eq
    | logical => exact absurd rfl (hlogical _)
    | load haddress => cases haddress
  · intro u t a hcode ha hM
    generalize op.resultType left right = type at hcode
    cases hcode with
    | binary hleft hright hoperator =>
      obtain rfl := hx.typed ha.sees hleft
      obtain rfl := hy.typed (ha.sees.emits hleft.emits) hright
      exact operands hx hy hleft hright hoperator hM ha
    | logical => exact absurd rfl (hlogical _)
    | load haddress => cases haddress

/-- The address of an element is a sum. -/
theorem subscript (hx : C.Settles (.value x) left first) (hy : C.Settles (.value y) right second)
    (hpointer : BinaryOp.resultType (.arithmetic .add) left right = .pointer element) :
    C.Settles (.address (.subscript span x y)) element
      (do C.lift (BinaryOp.combine (.arithmetic .add) left right (← first) (← second))) := by
  constructor
  · intro u t type hu hcode
    cases hcode with
    | subscript hleft hright hoperator =>
      obtain rfl := hx.typed hu hleft
      obtain rfl := hy.typed (hu.emits hleft.emits) hright
      exact CType.pointer.inj (hoperator.type_eq.trans hpointer)
  · intro u t a hcode ha hM
    cases hcode with
    | subscript hleft hright hoperator =>
      obtain rfl := hx.typed ha.sees hleft
      obtain rfl := hy.typed (ha.sees.emits hleft.emits) hright
      exact operands hx hy hleft hright hoperator hM ha

end Settles

end Setting.Course

/-- What an operator makes of the values of two expressions. -/
theorem Setting.Gives.operator {E : Setting} {span : Span} {op : BinaryOp} {x y : Expression}
    {left right : CType} {first second : Except Fault.Kind Value} (hlogical : ∀ op', op ≠ .logical op')
    (hx : E.Gives x left first) (hy : E.Gives y right second) :
    E.Gives (.binary span op x y) (op.resultType left right)
      (do op.combine left right (← first) (← second)) :=
  of_settles (hx.settles.operator hlogical hy.settles)

end ManagedC
