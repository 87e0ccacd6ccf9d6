import ManagedC.Proofs.Meaning.Words
import ManagedC.Proofs.Run.Reaches

/-!
# Operators on integers

The code of an operator on two integers brings them to one type and applies the instructions of the
operator to their words. Main statement: `Emit.applyBinary_agrees`.
-/

namespace ManagedC

open Yields Meaning

namespace Activation

variable {a : Activation} {m n : Int64} {rest : List Value}

/-- The local variables after two integers were brought to one type, the right one by way of a
temporary. -/
def unifiedLocals (a : Activation) (left right : CType) (slot : UInt16) (n : Int64) : Array Value :=
  if unificationTemporaries left right = [] then a.locals
  else a.locals.setIfInBounds slot.toNat (.int n)

/-- Two integers are brought to one type. Their words stay the same. -/
theorem follows_unification {left right : CType} {slot : UInt16}
    (ha : a.stack = .int n :: .int m :: rest)
    (hslot : unificationTemporaries left right ≠ [] → slot.toNat < a.locals.size ∧
      a.method.locals[slot.toNat]? = some ⟨none, .int64, false⟩) (s : Store) :
    a.Follows s (unification left right slot) { a with
      locals := a.unifiedLocals left right slot n
      pc := a.pc + (unification left right slot).length } := by
  obtain ⟨method, regions, arguments, locals, stack, pc, pending⟩ := a
  obtain rfl : stack = _ := ha
  unfold unifiedLocals unification unificationTemporaries at *
  have hkept : ∀ {r : List Value} {pc : Nat} {locals : Array Value},
      Executes ⟨method, regions, arguments, locals, .int n :: r, pc, pending⟩ s .convInt64
        ⟨method, regions, arguments, locals, .int n :: r, pc + 1, pending⟩ s := .onTop rfl rfl rfl
  cases hlong : (CType.arithmeticResult left right).isLong with
  | false => exact .nil
  | true =>
    cases hl : left.isLong with
    | true =>
      cases right.isLong with
      | true => exact .nil
      | false => exact .cons rfl hkept rfl .nil
    | false =>
      rw [hlong, hl] at hslot
      obtain ⟨hlt, hdeclared⟩ := hslot (by decide)
      -- The left integer is converted while the right one is in the temporary.
      have hleft : ∀ pc, Follows s ⟨method, regions, arguments, locals, .int n :: .int m :: rest, pc, pending⟩
          [.storeLocal slot, .convInt64, .loadLocal slot]
          ⟨method, regions, arguments, locals.setIfInBounds slot.toNat (.int n),
            .int n :: .int m :: rest, pc + 3, pending⟩ := fun pc =>
        .cons rfl (.storeLocal rfl hdeclared rfl) rfl (.cons rfl (.onTop rfl rfl rfl) rfl
          (.cons rfl (.loadLocal (Array.getElem?_setIfInBounds_self_of_lt hlt)) rfl .nil))
      cases right.isLong with
      | true => exact hleft pc
      | false => exact .cons rfl hkept rfl (hleft (pc + 1))

/-- The words of two integers are compared. -/
theorem follows_comparisonCode {op : ComparisonOp} (ha : a.stack = .int n :: .int m :: rest)
    (s : Store) : a.Follows s (comparisonCode op) { a with
      stack := .int (if op.instr.1.onInts m n != op.instr.2 then 1 else 0) :: rest
      pc := a.pc + (comparisonCode op).length } := by
  obtain ⟨method, regions, arguments, locals, stack, pc, pending⟩ := a
  obtain rfl : stack = _ := ha
  unfold comparisonCode
  cases op.instr.2 with
  | false =>
    rw [Bool.bne_false]
    exact .cons rfl (.onTop2 rfl rfl rfl) rfl .nil
  | true =>
    have hnegated : (if (op.instr.1.onInts m n != true) = true then (1 : Int64) else 0) =
        if CompareInstr.ceq.onInts (if op.instr.1.onInts m n then 1 else 0) 0 then 1 else 0 := by
      cases op.instr.1.onInts m n <;> rfl
    rw [hnegated]
    exact .cons rfl (.onTop2 rfl rfl rfl) rfl
      (.cons rfl .constInt32 rfl (.cons rfl (.onTop2 rfl rfl rfl) rfl .nil))

/-- The instructions of an operator are applied to two words. -/
theorem follows_operator {op : BinaryOp} {left right type : CType} {slot : UInt16} {w : Int64}
    {ts : List TargetType} {code : List Instruction} (h : OperatorCode slot op left right ts code type)
    (hl : left.isPointer = false) (hr : right.isPointer = false)
    (ha : a.stack = .int n :: .int m :: rest) (hw : onWords? op m n = some w)
    (hslot : ts ≠ [] → slot.toNat < a.locals.size ∧
      a.method.locals[slot.toNat]? = some ⟨none, .int64, false⟩) (s : Store) :
    a.Follows s code { a with
      stack := .int w :: rest
      locals := a.unifiedLocals left right slot n
      pc := a.pc + code.length } := by
  cases h with
  | @compareIntegers op =>
    cases hw
    rw [List.length_append, ← Nat.add_assoc]
    refine (follows_unification ha hslot s).append ?_
    let b : Activation := { a with
      locals := a.unifiedLocals left right slot n
      pc := a.pc + (unification left right slot).length }
    exact @follows_comparisonCode b m n rest op ha s
  | @integers op =>
    have hvalue : Value.int <$> op.instr.onInts m n = .ok (.int w) := by
      rw [Except.of_toOption hw]
      rfl
    rw [List.length_append, ← Nat.add_assoc]
    exact (follows_unification ha hslot s).append (.cons rfl (.onTop2 rfl ha hvalue) rfl .nil)
  | comparePointers _ _ hp => simp [hl, hr] at hp
  | movePointer _ hp => simp [hl] at hp
  | stepsFirst _ _ _ hp => simp [hr] at hp
  | difference _ hp => simp [hl] at hp

end Activation

namespace CType

variable {type : CType}

theorem isFloating_of_isInteger (h : type.isInteger = true) : type.isFloating = false := by
  cases type with
  | primitive kind => cases kind <;> first | rfl | cases h
  | _ => cases h

theorem isPointer_of_isInteger (h : type.isInteger = true) : type.isPointer = false := by
  cases type with
  | pointer => cases h
  | _ => rfl

theorem isInteger_of_format {f : IntegerFormat} (h : IntegerFormat.of? type = some f) :
    type.isInteger = true := by
  unfold IntegerFormat.of? at h
  split at h
  all_goals first
    | rfl
    | cases h

end CType

namespace OperatorCode

variable {slot : UInt16} {op : BinaryOp} {left right type : CType} {ts : List TargetType}
  {code : List Instruction}

/-- The only temporary of an operator on integers is a `long`. -/
theorem temporaries (h : OperatorCode slot op left right ts code type)
    (hl : left.isPointer = false) (hr : right.isPointer = false) (hts : ts ≠ []) : ts = [.int64] := by
  have hunification : unificationTemporaries left right ≠ [] →
      unificationTemporaries left right = [.int64] := by
    unfold unificationTemporaries
    split
    · exact fun _ => rfl
    · exact fun h => absurd rfl h
  cases h with
  | compareIntegers | integers => exact hunification hts
  | comparePointers _ _ hp => simp [hl, hr] at hp
  | movePointer _ hp => simp [hl] at hp
  | stepsFirst _ _ _ hp => simp [hr] at hp
  | difference _ hp => simp [hl] at hp

end OperatorCode

namespace Emit

variable {left right : CType} {s : Scope}

theorem exists_yields_integerOperation (op : BinaryOp) (hop : ∀ o, op ≠ .logical o) :
    ∃ type t, Yields (integerOperation op left right) s type t := by
  have hunify : ∃ t, Yields (unifyIntegers left right) s () t := by
    unfold unifyIntegers
    cases (CType.arithmeticResult left right).isLong <;> cases right.isLong <;> cases left.isLong <;>
      exact ⟨_, rfl⟩
  obtain ⟨t, ht⟩ := hunify
  unfold integerOperation
  simp only [bind_iff]
  cases op with
  | arithmetic op => exact ⟨_, _, (), t, ht, rfl⟩
  | comparison op => cases op <;> exact ⟨_, _, (), t, ht, rfl⟩
  | logical op => exact absurd rfl (hop op)

/-- An operator on two integers has code. Wherever that is run on values of the two types for which the
language defines a result, it leaves one word that agrees with the result. -/
theorem applyBinary_agrees {op : BinaryOp} (hop : ∀ o, op ≠ .logical o)
    {f g : IntegerFormat} (hl : IntegerFormat.of? left = some f) (hr : IntegerFormat.of? right = some g)
    (hroom : s.assembler.method.locals.size < 2 ^ 16) (location : Location) :
    ∃ type ts code, Yields (applyBinary op left right location) s type (s.append ts code) ∧
      ∀ (program : Module) (a : Activation) (x y v : Int) (rest : List Value),
        (s.append ts code).assembler.method.Extends a.method → a.pc = s.offset →
        a.locals.size = a.method.locals.size →
        f.Holds x → g.Holds y → combined? op f g x y = some v →
        a.stack = .int (.ofInt y) :: .int (.ofInt x) :: rest →
        ∃ w locals, a.Reaches program
            { a with stack := .int w :: rest, locals := locals, pc := (s.append ts code).offset } ∧
          (∀ k < s.assembler.method.locals.size, locals[k]? = a.locals[k]?) ∧
          Agrees op f g x y v w := by
  have hli := CType.isInteger_of_format hl
  have hri := CType.isInteger_of_format hr
  have hlp := CType.isPointer_of_isInteger hli
  have hrp := CType.isPointer_of_isInteger hri
  have hexists : ∃ type t, Yields (integerOperation op left right) s type t :=
    exists_yields_integerOperation op hop
  obtain ⟨type, t, hyields⟩ := hexists
  have happly : applyBinary op left right location = integerOperation op left right := by
    unfold applyBinary
    rw [CType.isFloating_of_isInteger hli, CType.isFloating_of_isInteger hri, hli, hri]
    rfl
  rw [← happly] at hyields
  obtain ⟨ts, code, rfl, hcode⟩ := yields_applyBinary hyields
  refine ⟨type, ts, code, hyields, ?_⟩
  intro program a x y v rest hM hpc hlocals hx hy hv hstack
  obtain ⟨w, hw, hagrees⟩ := onWords_of_combined? hx hy hv
  have hnext : s.nextSlot.toNat = s.assembler.method.locals.size := UInt16.toNat_ofNat_of_lt' hroom
  have hslot : ts ≠ [] → s.nextSlot.toNat < a.locals.size ∧
      a.method.locals[s.nextSlot.toNat]? = some ⟨none, .int64, false⟩ := by
    intro hts
    refine ⟨hlocals ▸ Scope.nextSlot_lt hM hts, hM.variableAt ?_⟩
    obtain rfl := hcode.temporaries hlp hrp hts
    rw [hnext]
    exact Array.getElem?_push_size
  refine ⟨w, a.unifiedLocals left right s.nextSlot (.ofInt y), ?_, ?_, hagrees⟩
  · have hrun := fun store => Activation.follows_operator hcode hlp hrp hstack hw hslot store
    rw [Scope.offset_append, ← hpc]
    exact .follows (hpc.symm ▸ Scope.hasCode_append hM) hrun
  · intro k hk
    unfold Activation.unifiedLocals
    split
    · rfl
    · exact Array.getElem?_setIfInBounds_ne (by omega)

/-- The scope of a function before anything is emitted. -/
def scope : Scope := .begin ⟨"f", .int, some [], false, ⟨"f", .int32, []⟩⟩ {}

/-- A call of a method whose code begins with an operator, with two integers on the stack. -/
def operands (m : Method) (x y : Int) : Activation :=
  ⟨m, [], #[], m.locals.map fun v => .zeroOf v.type, [.int (.ofInt y), .int (.ofInt x)], 0, []⟩

/-- The code of an operator leaves a word on two integers. -/
def Leaves (op : BinaryOp) (left right : CType) (x y : Int) (w : Int64) : Prop :=
  ∃ type t, Yields (applyBinary op left right default) scope type t ∧
    ∀ program, ∃ b, (operands t.assembler.method x y).Reaches program b ∧ b.stack = [.int w]

/-- The sum of an `int` and an `unsigned long` wraps around. -/
theorem applyBinary_wraps : Leaves (.arithmetic .add) .int (.primitive .unsignedLong) 5 (2 ^ 64 - 1) 4 := by
  obtain ⟨type, ts, code, hyields, hruns⟩ := @applyBinary_agrees .int (.primitive .unsignedLong) scope
    (.arithmetic .add) nofun _ _ rfl rfl (by decide) default
  refine ⟨type, _, hyields, fun program => ?_⟩
  obtain ⟨w, locals, hreaches, -, hagrees⟩ := hruns program (operands _ 5 (2 ^ 64 - 1)) 5 (2 ^ 64 - 1)
    4 [] (.refl _) rfl Array.size_map (by decide) (by decide) (by decide) rfl
  obtain rfl : w = .ofInt 4 := hagrees.exact (.inr (.inl rfl))
  exact ⟨_, hreaches, rfl⟩

/-- Results of unsigned types are not reduced, and their values are compared, divided and shifted with a
sign. -/
theorem applyBinary_signed :
    (combined? (.arithmetic .add) ⟨32, false, by decide⟩ ⟨32, true, by decide⟩ (2 ^ 32 - 1) 1 = some 0 ∧
      Leaves (.arithmetic .add) (.primitive .unsignedInt) .int (2 ^ 32 - 1) 1 (2 ^ 32)) ∧
    (combined? (.comparison .lt) ⟨32, true, by decide⟩ ⟨32, false, by decide⟩ (-1) 1 = some 0 ∧
      Leaves (.comparison .lt) .int (.primitive .unsignedInt) (-1) 1 1) ∧
    (combined? (.arithmetic .div) ⟨64, false, by decide⟩ ⟨64, false, by decide⟩ (2 ^ 64 - 1) 2 =
        some (2 ^ 63 - 1) ∧
      Leaves (.arithmetic .div) (.primitive .unsignedLong) (.primitive .unsignedLong) (2 ^ 64 - 1) 2 0) ∧
    (combined? (.arithmetic .shiftRight) ⟨64, false, by decide⟩ ⟨32, true, by decide⟩ (2 ^ 64 - 1) 1 =
        some (2 ^ 63 - 1) ∧
      Leaves (.arithmetic .shiftRight) (.primitive .unsignedLong) .int (2 ^ 64 - 1) 1 (-1)) := by
  have hleaves : ∀ {op : BinaryOp} {left right type : CType} {x y : Int} {w : Int64}
      {ts : List TargetType} {code : List Instruction},
      Yields (applyBinary op left right default) scope type (scope.append ts code) →
      (∀ s, (operands (scope.append ts code).assembler.method x y).Follows s code
        { operands (scope.append ts code).assembler.method x y with
          stack := [.int w], pc := code.length }) → Leaves op left right x y w := by
    intro op left right type x y w ts code hyields hfollows
    refine ⟨type, _, hyields, fun program => ⟨_, .follows ?_ hfollows, rfl⟩⟩
    exact Scope.hasCode_append (.refl _)
  refine ⟨⟨by decide, ?_⟩, ⟨by decide, ?_⟩, ⟨by decide, ?_⟩, by decide, ?_⟩
  · refine @hleaves _ _ _ _ _ _ _ [] [.binary .add] rfl fun s => ?_
    exact .cons rfl (.onTop2 rfl rfl rfl) rfl .nil
  · refine @hleaves _ _ _ _ _ _ _ [] [.compare .clt] rfl fun s => ?_
    exact .cons rfl (.onTop2 rfl rfl rfl) rfl .nil
  · refine @hleaves _ _ _ _ _ _ _ [] [.binary .div] rfl fun s => ?_
    exact .cons rfl (.onTop2 rfl rfl rfl) rfl .nil
  · refine @hleaves _ _ _ _ _ _ _ [] [.convInt64, .binary .shr] rfl fun s => ?_
    exact .cons rfl (.onTop rfl rfl rfl) rfl (.cons rfl (.onTop2 rfl rfl rfl) rfl .nil)

end Emit

end ManagedC
