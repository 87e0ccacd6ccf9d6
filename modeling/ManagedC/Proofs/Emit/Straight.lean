import ManagedC.Double
import ManagedC.Proofs.Emit.Growth

/-!
# The straight-line code of conversions and operators

What `coerce`, `unifyIntegers` and `applyBinary` emit has no labels in it. It is written down here as
lists of instructions, which depend on the types of the operands and on the slot of the one temporary
that may be needed. `OperatorCode` is the code of a binary operator, one constructor for each way the
operands can be combined.
-/

namespace ManagedC

open Yields Emit

/-- The code of a conversion between two types. -/
def coercion (source target : CType) : List Instruction :=
  if source = target || source.isPointer && target.isPointer then []
  else if target.isPointer then [.convNative]
  else if target.isLong && !source.isLong then [.convInt64]
  else if !target.isLong && source.isLong then [.convInt32]
  else []

/-- The temporaries needed to bring two integers to one type. -/
def unificationTemporaries (left right : CType) : List TargetType :=
  if (CType.arithmeticResult left right).isLong && !left.isLong then [.int64] else []

/-- The code that brings two integers to one type; the right one is kept in a temporary while the
left one is converted. -/
def unification (left right : CType) (temporary : UInt16) : List Instruction :=
  if (CType.arithmeticResult left right).isLong then
    (if right.isLong then [] else [.convInt64])
      ++ (if left.isLong then []
        else [.storeLocal temporary, .convInt64, .loadLocal temporary])
  else []

/-- The code of a comparison. -/
def comparisonCode (op : ComparisonOp) : List Instruction :=
  .compare op.instr.1 :: if op.instr.2 then [.constInt32 0, .compare .ceq] else []

/-- The code that turns a number of steps into a number of bytes. -/
def scaling (size : Int32) : List Instruction :=
  .convNative :: if size ≠ 1 then [.constInt32 size, .convNative, .binary .mul] else []

/-- The code that divides a number of bytes by the size of a step. -/
def unscaling (size : Int32) : List Instruction :=
  if size ≠ 1 then [.constInt32 size, .convNative, .binary .div] else []

/-- A pointer of the type moves by so many bytes in one step. -/
def CType.Steps (pointer : CType) (size : Int32) : Prop :=
  ∃ n : Nat, pointer.target?.bind CType.size? = some n ∧ n < 2 ^ 31 ∧ size = Int32.ofNat n

/-- The code of a binary operator on operands of two types, with its temporaries and the type of the
result. The first temporary gets the given slot. -/
inductive OperatorCode (slot : UInt16) :
    BinaryOp → CType → CType → List TargetType → List Instruction → CType → Prop where
  | compareIntegers {op : ComparisonOp} {left right : CType} :
    left.isInteger = true → right.isInteger = true →
    OperatorCode slot (.comparison op) left right (unificationTemporaries left right)
      (unification left right slot ++ comparisonCode op) .int
  | integers {op : ArithmeticOp} {left right : CType} :
    left.isInteger = true → right.isInteger = true →
    OperatorCode slot (.arithmetic op) left right (unificationTemporaries left right)
      (unification left right slot ++ [.binary op.instr]) (.arithmeticResult left right)
  /-- Two values, one of them a pointer, are compared. -/
  | comparePointers {op : ComparisonOp} {left right : CType} :
    left.isComparable = true → right.isComparable = true →
    left.isPointer = true ∨ right.isPointer = true →
    OperatorCode slot (.comparison op) left right [] (comparisonCode op) .int
  /-- A pointer is moved by a number of steps. -/
  | movePointer {op : ArithmeticOp} {left right : CType} (size : Int32) :
    left.isPointer = true → right.isInteger = true → left.Steps size →
    OperatorCode slot (.arithmetic op) left right [] (scaling size ++ [.binary op.instr]) left
  /-- A number of steps is followed by the pointer that it moves. -/
  | stepsFirst {left right : CType} (size : Int32) (type : TargetType) :
    left.isInteger = true → right.isPointer = true → right.Steps size → right.target = .ok type →
    OperatorCode slot (.arithmetic .add) left right [type]
      (.storeLocal slot :: scaling size ++ [.loadLocal slot, .binary .add]) right
  /-- The number of steps between two pointers. -/
  | difference {left right : CType} (size : Int32) :
    left.isPointer = true → right.isPointer = true → left.Steps size →
    OperatorCode slot (.arithmetic .sub) left right []
      (.binary .sub :: unscaling size ++ [.convInt64]) .long

/-- Only integers and pointers are operands. -/
theorem OperatorCode.operands {slot : UInt16} {op : BinaryOp} {left right type : CType}
    {ts : List TargetType} {code : List Instruction}
    (h : OperatorCode slot op left right ts code type) :
    left.isComparable = true ∧ right.isComparable = true := by
  unfold CType.isComparable
  cases h <;> simp_all [CType.isComparable]

namespace Emit

variable {s t : Scope}

/-- A conversion to a type that is no pointer type emits its code, and only integers are
converted. -/
theorem yields_coerceInteger {source target : CType} {location : Location} {u : Unit}
    (hne : source ≠ target) (ht : target.isPointer = false)
    (h : Yields (coerce source target location) s u t) :
    t = s.append [] (coercion source target) ∧
      source.isInteger = true ∧ target.isInteger = true := by
  have hcoerce : coerce source target location =
      if source.isInteger && target.isInteger then
        if target.isLong && !source.isLong then instr .convInt64
        else if !target.isLong && source.isLong then instr .convInt32 else pure ()
      else badOperands (.notConvertible source target) location := by
    unfold coerce
    rw [if_neg hne]
    cases target with
    | pointer target => cases ht
    | _ => cases source <;> rfl
  rw [hcoerce] at h
  unfold coercion
  split at h
  · rename_i hi
    refine ⟨?_, Bool.and_eq_true_iff.1 hi⟩
    simp only [hne, ht, decide_false, Bool.and_false, Bool.or_false, Bool.false_eq_true, if_false]
    split at h
    · rename_i hc
      rw [if_pos hc, yields_instr.1 h]
    · rename_i hc
      rw [if_neg hc]
      split at h
      · rename_i hc'
        rw [if_pos hc', yields_instr.1 h]
      · rename_i hc'
        rw [if_neg hc', (pure_iff.1 h).2, Scope.append_nil]
  · exact absurd h not_yields_badOperands

/-- A conversion emits its code, and only integers and pointers are converted, pointers to pointers
only. -/
theorem yields_coerce {source target : CType} {location : Location} {u : Unit}
    (h : Yields (coerce source target location) s u t) :
    t = s.append [] (coercion source target) ∧
      (source = target ∨ source.isComparable = true ∧ target.isComparable = true ∧
        (target.isInteger = true → source.isInteger = true)) := by
  by_cases hne : source = target
  · unfold coerce at h
    rw [if_pos hne] at h
    refine ⟨?_, .inl hne⟩
    rw [(pure_iff.1 h).2, coercion, if_pos (by simp [hne]), Scope.append_nil]
  cases ht : target.isPointer with
  | false =>
    obtain ⟨rfl, hs, ht⟩ := yields_coerceInteger hne ht h
    exact ⟨rfl, .inr ⟨by simp [CType.isComparable, hs], by simp [CType.isComparable, ht],
      fun _ => hs⟩⟩
  | true =>
    cases target with
    | pointer target =>
      unfold coerce at h
      rw [if_neg hne] at h
      have hconv : ∀ {source : CType}, source ≠ .pointer target → source.isPointer = false →
          Yields (if source.isInteger then instr .convNative
            else badOperands (.notConvertible source (.pointer target)) location) s u t →
          t = s.append [] (coercion source (.pointer target)) ∧ source.isComparable = true := by
        intro source hne hp h
        split at h
        · rename_i hi
          rw [yields_instr.1 h, coercion]
          exact ⟨by simp [hne, hp, ht], by simp [CType.isComparable, hi]⟩
        · exact absurd h not_yields_badOperands
      cases source with
      | pointer source =>
        refine ⟨?_, .inr ⟨rfl, rfl, nofun⟩⟩
        rw [(pure_iff.1 h).2, coercion, if_pos (by simp [CType.isPointer]), Scope.append_nil]
      | _ =>
        obtain ⟨ht, hs⟩ := hconv hne rfl h
        exact ⟨ht, .inr ⟨hs, rfl, nofun⟩⟩
    | _ => cases ht

theorem yields_negation {u : Unit} (h : Yields negation s u t) :
    t = s.append [] [.constInt32 0, .compare .ceq] := by
  unfold negation at h
  simp only [bind_iff, yields_instr] at h
  obtain ⟨_, _, rfl, rfl⟩ := h
  rw [Scope.append_append]
  rfl

theorem yields_comparison {op : ComparisonOp} {u : Unit} (h : Yields (comparison op) s u t) :
    t = s.append [] (comparisonCode op) := by
  unfold comparison at h
  unfold comparisonCode
  simp only [bind_iff, yields_instr] at h
  obtain ⟨_, _, rfl, h⟩ := h
  split at h
  · rename_i hop
    rw [if_pos hop, yields_negation h, Scope.append_append]
    rfl
  · rename_i hop
    rw [if_neg hop, (pure_iff.1 h).2]

theorem yields_underTop {type : TargetType} {code : Emit Unit} {u : Unit}
    (h : Yields (underTop type code) s u t) : ∃ v, Yields code
      (s.append [type] [.storeLocal s.nextSlot]) () v ∧ t = v.append [] [.loadLocal s.nextSlot] := by
  unfold underTop at h
  simp only [bind_iff, yields_instr] at h
  obtain ⟨slot, _, hslot, _, _, rfl, _, v, hcode, rfl⟩ := h
  obtain ⟨rfl, rfl⟩ := yields_addTemporary hslot
  rw [Scope.append_append] at hcode
  exact ⟨v, hcode, rfl⟩

theorem yields_stepSize {pointer : CType} {location : Location} {size : Int32}
    (h : Yields (stepSize pointer location) s size t) : pointer.Steps size ∧ t = s := by
  unfold stepSize at h
  split at h
  · rename_i n hn
    split at h
    · rename_i hlt
      obtain ⟨rfl, rfl⟩ := pure_iff.1 h
      exact ⟨⟨n, hn, hlt, rfl⟩, rfl⟩
    · exact absurd h not_yields_badOperands
  · exact absurd h not_yields_badOperands

theorem yields_nativeSize {size : Int32} {u : Unit} (h : Yields (nativeSize size) s u t) :
    t = s.append [] [.constInt32 size, .convNative] := by
  unfold nativeSize at h
  simp only [bind_iff, yields_instr] at h
  obtain ⟨_, _, rfl, rfl⟩ := h
  rw [Scope.append_append]
  rfl

theorem yields_scale {size : Int32} {u : Unit} (h : Yields (scale size) s u t) :
    t = s.append [] (scaling size) := by
  unfold scale at h
  unfold scaling
  simp only [bind_iff, yields_instr] at h
  obtain ⟨_, _, rfl, h⟩ := h
  split at h
  · rename_i hsize
    simp only [bind_iff, yields_instr] at h
    obtain ⟨_, _, hn, rfl⟩ := h
    rw [if_pos hsize, yields_nativeSize hn, Scope.append_append, Scope.append_append]
    rfl
  · rename_i hsize
    rw [if_neg hsize, (pure_iff.1 h).2]

theorem yields_unifyIntegers {left right : CType} {u : Unit}
    (h : Yields (unifyIntegers left right) s u t) :
    t = s.append (unificationTemporaries left right) (unification left right s.nextSlot) := by
  have hleft : ∀ {v : Scope}, Yields (if (!left.isLong) = true then
        underTop .int64 (instr .convInt64) else pure ()) v u t →
      t = v.append (if left.isLong then [] else [.int64]) (if left.isLong then []
        else [.storeLocal v.nextSlot, .convInt64, .loadLocal v.nextSlot]) := by
    intro v h
    cases hl : left.isLong with
    | true =>
      rw [hl] at h
      rw [(pure_iff.1 h).2]
      exact (Scope.append_nil v).symm
    | false =>
      rw [hl] at h
      obtain ⟨w, hw, rfl⟩ := yields_underTop h
      rw [yields_instr.1 hw, Scope.append_append, Scope.append_append]
      rfl
  unfold unifyIntegers at h
  unfold unificationTemporaries unification
  split at h
  · rename_i hlong
    rw [hlong, Bool.true_and, if_pos rfl]
    dsimp only at h
    cases hr : right.isLong with
    | true =>
      rw [hr] at h
      rw [hleft h]
      cases left.isLong <;> rfl
    | false =>
      rw [hr] at h
      simp only [Bool.not_false, if_true, bind_iff, yields_instr] at h
      obtain ⟨_, v, rfl, h⟩ := h
      rw [hleft h, Scope.append_append]
      cases left.isLong <;> rfl
  · rename_i hlong
    rw [(pure_iff.1 h).2]
    simp [hlong]

theorem yields_integerOperation {op : BinaryOp} {left right type : CType}
    (hl : left.isInteger = true) (hr : right.isInteger = true)
    (h : Yields (integerOperation op left right) s type t) :
    ∃ temporaries code, t = s.append temporaries code ∧
      OperatorCode s.nextSlot op left right temporaries code type := by
  unfold integerOperation at h
  rw [bind_iff] at h
  obtain ⟨_, v, hv, h⟩ := h
  obtain rfl := yields_unifyIntegers hv
  cases op with
  | comparison op =>
    simp only [bind_iff, pure_iff] at h
    obtain ⟨_, w, hw, rfl, rfl⟩ := h
    refine ⟨_, _, ?_, .compareIntegers hl hr⟩
    rw [yields_comparison hw, Scope.append_append, List.append_nil]
  | arithmetic op =>
    simp only [bind_iff, pure_iff, yields_instr] at h
    obtain ⟨_, w, rfl, rfl, rfl⟩ := h
    refine ⟨_, _, ?_, .integers hl hr⟩
    rw [Scope.append_append, List.append_nil]
  | logical op => exact absurd h not_throw

theorem yields_pointerComparison {op : ComparisonOp} {left right type : CType}
    {location : Location} (hp : left.isPointer = true ∨ right.isPointer = true)
    (h : Yields (pointerComparison op left right location) s type t) :
    t = s.append [] (comparisonCode op) ∧
      OperatorCode s.nextSlot (.comparison op) left right [] (comparisonCode op) type := by
  unfold pointerComparison at h
  split at h
  · rename_i hc
    obtain ⟨hl, hr⟩ := Bool.and_eq_true_iff.1 hc
    simp only [bind_iff, pure_iff] at h
    obtain ⟨_, w, hw, rfl, rfl⟩ := h
    exact ⟨yields_comparison hw, .comparePointers hl hr hp⟩
  · exact absurd h not_yields_badOperands

theorem yields_pointerThenSteps {op : BinaryInstr} {pointer type : CType} {location : Location}
    (h : Yields (pointerThenSteps op pointer location) s type t) :
    ∃ size, pointer.Steps size ∧ type = pointer ∧
      t = s.append [] (scaling size ++ [.binary op]) := by
  unfold pointerThenSteps at h
  simp only [bind_iff, pure_iff, yields_instr] at h
  obtain ⟨size, _, hsize, _, _, hscale, _, _, rfl, rfl, rfl⟩ := h
  obtain ⟨hsteps, rfl⟩ := yields_stepSize hsize
  refine ⟨size, hsteps, rfl, ?_⟩
  rw [yields_scale hscale, Scope.append_append]
  rfl

theorem yields_stepsThenPointer {pointer type : CType} {location : Location}
    (h : Yields (stepsThenPointer pointer location) s type t) :
    ∃ size target, pointer.Steps size ∧ pointer.target = .ok target ∧ type = pointer ∧
      t = s.append [target]
        (.storeLocal s.nextSlot :: scaling size ++ [.loadLocal s.nextSlot, .binary .add]) := by
  unfold stepsThenPointer at h
  simp only [bind_iff, pure_iff, yields_instr] at h
  obtain ⟨size, _, hsize, target, _, htarget, _, _, hunder, _, _, rfl, rfl, rfl⟩ := h
  obtain ⟨hsteps, rfl⟩ := yields_stepSize hsize
  obtain ⟨ht, rfl⟩ := yields_represent htarget
  obtain ⟨v, hv, rfl⟩ := yields_underTop hunder
  refine ⟨size, target, hsteps, ht, rfl, ?_⟩
  rw [yields_scale hv]
  simp

theorem yields_pointerDifference {pointer type : CType} {location : Location}
    (h : Yields (pointerDifference pointer location) s type t) :
    ∃ size, pointer.Steps size ∧ type = .long ∧
      t = s.append [] (.binary .sub :: unscaling size ++ [.convInt64]) := by
  unfold pointerDifference at h
  simp only [bind_iff, yields_instr] at h
  obtain ⟨size, _, hsize, _, _, rfl, h⟩ := h
  obtain ⟨hsteps, rfl⟩ := yields_stepSize hsize
  refine ⟨size, hsteps, ?_⟩
  by_cases hone : size ≠ 1
  · simp only [if_pos hone, bind_iff, yields_instr, pure_iff] at h
    obtain ⟨_, _, hn, _, _, rfl, _, _, rfl, rfl, rfl⟩ := h
    rw [yields_nativeSize hn]
    simp [unscaling, hone]
  · simp only [if_neg hone, bind_iff, yields_instr, pure_iff] at h
    obtain ⟨_, _, rfl, rfl, rfl⟩ := h
    simp [unscaling, hone]

theorem yields_pointerArithmetic {op : ArithmeticOp} {left right type : CType}
    {location : Location} (h : Yields (pointerArithmetic op left right location) s type t) :
    ∃ temporaries code, t = s.append temporaries code ∧
      OperatorCode s.nextSlot (.arithmetic op) left right temporaries code type := by
  unfold pointerArithmetic at h
  cases op <;> simp only at h
  case add =>
    split at h
    · rename_i hc
      obtain ⟨hl, hr⟩ := Bool.and_eq_true_iff.1 hc
      obtain ⟨size, hsteps, rfl, ht⟩ := yields_pointerThenSteps h
      exact ⟨_, _, ht, .movePointer size hl hr hsteps⟩
    split at h
    · rename_i hc
      obtain ⟨hl, hr⟩ := Bool.and_eq_true_iff.1 hc
      obtain ⟨size, target, hsteps, htarget, rfl, ht⟩ := yields_stepsThenPointer h
      exact ⟨_, _, ht, .stepsFirst size target hl hr hsteps htarget⟩
    · exact absurd h not_yields_badOperands
  case sub =>
    split at h
    · rename_i hc
      obtain ⟨hl, hr⟩ := Bool.and_eq_true_iff.1 hc
      obtain ⟨size, hsteps, rfl, ht⟩ := yields_pointerThenSteps h
      exact ⟨_, _, ht, .movePointer size hl hr hsteps⟩
    split at h
    · rename_i hc
      obtain ⟨hl, hr⟩ := Bool.and_eq_true_iff.1 hc
      obtain ⟨size, hsteps, rfl, ht⟩ := yields_pointerDifference h
      exact ⟨_, _, ht, .difference size hl hr hsteps⟩
    · exact absurd h not_yields_badOperands
  all_goals exact absurd h not_yields_badOperands

/-- A binary operator emits its code. -/
theorem yields_applyBinary {op : BinaryOp} {left right type : CType} {location : Location}
    (h : Yields (applyBinary op left right location) s type t) :
    ∃ temporaries code, t = s.append temporaries code ∧
      OperatorCode s.nextSlot op left right temporaries code type := by
  unfold applyBinary at h
  split at h
  · exact absurd h not_yields_missing
  split at h
  · rename_i hi
    obtain ⟨hl, hr⟩ := Bool.and_eq_true_iff.1 hi
    exact yields_integerOperation hl hr h
  cases op with
  | comparison op =>
    simp only at h
    split at h
    · rename_i hp
      exact ⟨_, _, yields_pointerComparison (Bool.or_eq_true_iff.1 hp) h⟩
    · exact absurd h not_yields_badOperands
  | arithmetic op => exact yields_pointerArithmetic h
  | logical op => exact absurd h not_yields_badOperands

end Emit

end ManagedC
