import ManagedC.Proofs.Emit.Elsewhere
import ManagedC.Proofs.Meaning.Operators

/-!
# Code that can be emitted everywhere

The code of an operator can be emitted in every scope if the types of the operands fit
(`Emit.Answers`): it needs no names, and no label that could have been bound already. So an
expression is compiled wherever its parts are (`Expression.Compiles`), since the first of them does
not keep the second from being compiled. Main statements are those on sums
(`Expression.Compiles.arithmetic`) and on elements (`Expression.Compiles.dereference`,
`Expression.Compiles.subscript`).
-/

namespace ManagedC

open Yields Emit

namespace Emit

variable {α β : Type}

/-- The computation has an answer whatever the scope is. -/
def Answers (x : Emit α) (a : α) : Prop := ∀ s, ∃ t, Yields x s a t

namespace Answers

variable {x : Emit α} {f : α → Emit β} {a : α} {b : β}

theorem pure (a : α) : Answers (Pure.pure a) a := fun s => ⟨s, pure_iff.2 ⟨rfl, rfl⟩⟩

theorem bind (hx : Answers x a) (hf : Answers (f a) b) : Answers (x >>= f) b := by
  intro s
  obtain ⟨u, hu⟩ := hx s
  obtain ⟨t, ht⟩ := hf u
  exact ⟨t, bind_iff.2 ⟨a, u, hu, ht⟩⟩

theorem instr (i : Instruction) : Answers (Emit.instr i) () := fun _ => ⟨_, yields_instr.2 rfl⟩

theorem choice {c : Prop} [Decidable c] {x y : Emit α} (hx : Answers x a) (hy : Answers y a) :
    Answers (if c then x else y) a := by
  split
  · exact hx
  · exact hy

/-- Something is done first under a condition. -/
theorem optionally {c : Prop} [Decidable c] {x : Emit Unit} {y : Emit β} (hx : Answers x ())
    (hy : Answers y b) : Answers (if c then x >>= fun _ => y else y) b := .choice (hx.bind hy) hy

/-! ## Operators -/

theorem underTop (type : TargetType) {code : Emit Unit} (h : Answers code ()) :
    Answers (Emit.underTop type code) () := by
  intro s
  have hrest : Answers (Emit.instr (.storeLocal s.nextSlot) >>= fun _ => code >>= fun _ =>
      Emit.instr (.loadLocal s.nextSlot)) () := (instr _).bind (h.bind (instr _))
  obtain ⟨t, ht⟩ := hrest (s.append [type] [])
  exact ⟨t, bind_iff.2 ⟨_, _, addTemporary_yields type s, ht⟩⟩

theorem nativeSize (size : Int32) : Answers (Emit.nativeSize size) () := (instr _).bind (instr _)

theorem scale (size : Int32) : Answers (Emit.scale size) () :=
  (instr _).bind (.choice ((nativeSize size).bind (instr _)) (.pure ()))

theorem unifyIntegers (left right : CType) : Answers (Emit.unifyIntegers left right) () :=
  .choice (.optionally (instr _) (.choice ((instr _).underTop _) (.pure ()))) (.pure ())

theorem represent {type : CType} {target : TargetType} (h : type.target = .ok target)
    (location : Location) : Answers (Emit.represent type location) target :=
  fun s => ⟨s, yields_represent_iff.2 ⟨h, rfl⟩⟩

theorem loadThrough {type : CType} {target : TargetType} (h : type.target = .ok target)
    (location : Location) : Answers (Emit.loadThrough type location) type :=
  (represent h location).bind ((instr _).bind (.pure _))

theorem stepSize {pointer : CType} {size : Int32} (h : pointer.Steps size) (location : Location) :
    Answers (Emit.stepSize pointer location) size := by
  obtain ⟨n, hn, hlt, rfl⟩ := h
  unfold Emit.stepSize
  rw [hn]
  dsimp only
  rw [if_pos hlt]
  exact .pure _

variable {element index index' : CType} {size : Int32} (location : Location)

/-- Two integers are added. -/
theorem integers (hindex : index.isInteger = true) (hindex' : index'.isInteger = true) :
    Answers (Emit.applyBinary (.arithmetic .add) index index' location)
      (CType.arithmeticResult index index') := by
  unfold Emit.applyBinary
  rw [CType.isFloating_of_isInteger hindex, CType.isFloating_of_isInteger hindex', hindex, hindex']
  exact (unifyIntegers _ _).bind ((instr _).bind (.pure _))

section

variable (hsteps : (CType.pointer element).Steps size)

include hsteps

/-- A pointer is moved by a number of steps. -/
theorem steps (hindex : index.isInteger = true) :
    Answers (Emit.applyBinary (.arithmetic .add) (.pointer element) index location)
      (.pointer element) := by
  unfold Emit.applyBinary
  rw [CType.isFloating_of_isInteger hindex]
  show Answers (if (_ && index.isInteger) = true then pointerThenSteps .add (.pointer element) location
    else _) _
  rw [hindex]
  exact (stepSize hsteps location).bind ((scale size).bind ((instr _).bind (.pure _)))

/-- So it is if the number comes first. -/
theorem stepsFirst {target : TargetType} (htarget : (CType.pointer element).target = .ok target)
    (hindex : index.isInteger = true) :
    Answers (Emit.applyBinary (.arithmetic .add) index (.pointer element) location)
      (.pointer element) := by
  unfold Emit.applyBinary
  rw [CType.isFloating_of_isInteger hindex, hindex]
  show Answers (if (index.isPointer && _) = true then _ else if (index.isInteger && _) = true then
    stepsThenPointer (.pointer element) location else _) _
  rw [CType.isPointer_of_isInteger hindex, hindex]
  exact (stepSize hsteps location).bind ((represent htarget location).bind
    (((scale size).underTop _).bind ((instr _).bind (.pure _))))

/-- The number of steps between two pointers. -/
theorem distance : Answers (Emit.applyBinary (.arithmetic .sub) (.pointer element) (.pointer element)
    location) .long :=
  have hend := (instr .convInt64).bind (.pure CType.long)
  (stepSize hsteps location).bind ((instr _).bind
    (.choice ((nativeSize size).bind ((instr _).bind hend)) hend))

end

end Answers

end Emit

/-! ## Expressions -/

/-- The expression is compiled in a scope and has a type. -/
def Expression.Compiles (e : Expression) (s : Scope) (type : CType) : Prop := ∃ t, Yields e.compile s type t

namespace Expression.Compiles

variable {s : Scope} {left right pointer : Expression} {span : Span}
  {leftType rightType type element : CType} {target : TargetType}

/-- An expression is compiled behind another one as well. -/
theorem pair (hs : s.Allots) (hleft : left.Compiles s leftType) (hright : right.Compiles s rightType) :
    ∃ u v, Yields left.compile s leftType u ∧ Yields right.compile u rightType v := by
  obtain ⟨u, hu⟩ := hleft
  obtain ⟨v, hv⟩ := hright
  obtain ⟨-, -, hsu, -⟩ := (Alike.compileExpression left).yields (.refl s) hs hs hu
  obtain ⟨w, hw, -⟩ := (Alike.compileExpression right).yields hsu.agrees hs (hsu.allots hs) hv
  exact ⟨u, w, hu, hw⟩

/-- Two operands are combined if they can be. -/
theorem arithmetic {op : ArithmeticOp} (hs : s.Allots) (hleft : left.Compiles s leftType)
    (hright : right.Compiles s rightType)
    (hop : ∀ location, Answers (Emit.applyBinary (.arithmetic op) leftType rightType location) type) :
    (Expression.binary span (.arithmetic op) left right).Compiles s type := by
  obtain ⟨u, v, hu, hv⟩ := pair hs hleft hright
  obtain ⟨t, ht⟩ := hop span.start v
  refine ⟨t, ?_⟩
  rw [compile_arithmetic]
  exact bind_iff.2 ⟨_, u, hu, bind_iff.2 ⟨_, v, hv, ht⟩⟩

section

variable (hvoid : element.isVoid = false) (htarget : element.target = .ok target)

include hvoid htarget

theorem dereference (h : pointer.Compiles s (.pointer element)) :
    (Expression.unary span .dereference pointer).Compiles s element := by
  obtain ⟨u, hu⟩ := h
  obtain ⟨t, ht⟩ := Answers.loadThrough htarget span.start u
  refine ⟨t, ?_⟩
  rw [compile_dereference]
  refine bind_iff.2 ⟨element, u, bind_iff.2 ⟨_, u, hu, ?_⟩, ht⟩
  dsimp only
  rw [hvoid]
  exact pure_iff.2 ⟨rfl, rfl⟩

theorem subscript (hs : s.Allots) (hleft : left.Compiles s leftType) (hright : right.Compiles s rightType)
    (hoperands : (leftType.isPointer && rightType.isInteger
      || leftType.isInteger && rightType.isPointer) = true)
    (hop : ∀ location, Answers (Emit.applyBinary (.arithmetic .add) leftType rightType location)
      (.pointer element)) : (Expression.subscript span left right).Compiles s element := by
  obtain ⟨u, v, hu, hv⟩ := pair hs hleft hright
  obtain ⟨w, hw⟩ := hop span.start v
  obtain ⟨t, ht⟩ := Answers.loadThrough htarget span.start w
  refine ⟨t, ?_⟩
  rw [compile_subscript]
  refine bind_iff.2 ⟨element, w, bind_iff.2 ⟨_, u, hu, bind_iff.2 ⟨_, v, hv, ?_⟩⟩, ht⟩
  rw [hoperands]
  refine bind_iff.2 ⟨_, w, hw, ?_⟩
  dsimp only
  rw [hvoid]
  exact pure_iff.2 ⟨rfl, rfl⟩

end

end Expression.Compiles

end ManagedC
