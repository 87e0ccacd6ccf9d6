import ManagedC.Proofs.Emit.StarterCode
import ManagedC.Proofs.Kinds.Instructions
import ManagedC.Proofs.Stack.Safety

/-!
# Places where the stack is typed

`Method.Typed` says that control may be at an instruction of a method with values of some kinds on the
stack: what the next so many instructions leave there is of the kinds that those after them expect, and
calls pass and return values of the kinds that are declared. The number of instructions is bounded so
that a loop can be shown to be typed by induction on it. Main statement: straight-line code leads from
one typed place to another (`Method.Turns.typed`).
-/

namespace ManagedC

/-- The kinds of the values that a value of the type is: one, or none if there are no values. -/
def CType.kinds (type : CType) : List Kind := if type.isVoid then [] else [type.kind]

theorem CType.kinds_of_isVoid {type : CType} (h : type.isVoid = true) : type.kinds = [] := by
  simp [kinds, h]

theorem CType.kinds_of_not_isVoid {type : CType} (h : type.isVoid = false) :
    type.kinds = [type.kind] := by
  simp [kinds, h]

namespace Method

/-- The kinds of the values that a call of the method takes off the stack. -/
def takenKinds (m : Method) : List Kind := (m.parameters.map (·.type.kind)).reverse

/-- The kinds of the values that a call of the method leaves on the stack. -/
def givenKinds (m : Method) : List Kind := if m.returnType = .void then [] else [m.returnType.kind]

/-- A method calls another with values of the given kinds. One with handlers, like the starter, only
passes on what it lends. -/
structure PassesTo (m callee : Method) (taken : List Kind) : Prop where
  /-- They are what the other method takes. -/
  within : List.Forall₂ Kind.Within taken callee.takenKinds
  lent : m.body.handlers = [] ∨ ∀ k ∈ taken, k.Within .lent

/-- A method without handlers calls the starter, since there is a function of its name. Nothing is known
of what comes after the call, but the starter does not get that far. -/
def Restarts (program : Module) (m : Method) (ref : MethodRef) : Prop :=
  m.body.handlers = [] ∧ ∃ entry, program.findMethod? ref.name = some (EntryPoint.bridge entry)

/-- Control may be at an instruction with values of the given kinds on the stack, and so many
instructions can be executed. A property is known of the kinds behind the last instruction. -/
def Typed (program : Module) (m : Method) (last : List Kind → Prop) : Nat → Nat → List Kind → Prop
  | 0, _, _ => True
  | n + 1, pc, d =>
    match m.body.instructions[pc]? with
    | none => last d
    | some (.branch label) =>
      ∃ offset, m.body.labels.offset? label = some offset ∧ Typed program m last n offset d
    | some (.branchIf _ label) => ∃ k e offset, d = k :: e ∧
      m.body.labels.offset? label = some offset ∧ Typed program m last n offset e ∧
        Typed program m last n (pc + 1) e
    | some (.call ref) => Restarts program m ref ∨
      ∃ callee taken e, program.findMethod? ref.name = some callee ∧ m.PassesTo callee taken ∧
        d = taken ++ e ∧ Typed program m last n (pc + 1) (callee.givenKinds ++ e)
    | some .ret => ∃ e, d = m.givenKinds ++ e
    | some (.leave label) =>
      ∃ offset, m.body.labels.offset? label = some offset ∧ Typed program m last n offset []
    | some .endFinally => True
    | some i => ∃ e, i.Turns m m.body.instructions[pc + 1]? d e ∧ Typed program m last n (pc + 1) e

variable {program : Module} {m : Method} {last : List Kind → Prop} {n pc : Nat} {d e : List Kind}
  {code code' : List Instruction} {i : Instruction}

/-! ## What is at a typed place -/

theorem typed_none (hi : m.body.instructions[pc]? = none) :
    Typed program m last (n + 1) pc d ↔ last d := by
  conv_lhs => whnf
  simp only [hi]

theorem typed_branch {label : Label} (hi : m.body.instructions[pc]? = some (.branch label)) :
    Typed program m last (n + 1) pc d ↔
      ∃ offset, m.body.labels.offset? label = some offset ∧ Typed program m last n offset d := by
  conv_lhs => whnf
  simp only [hi]

theorem typed_branchIf {condition : Bool} {label : Label}
    (hi : m.body.instructions[pc]? = some (.branchIf condition label)) :
    Typed program m last (n + 1) pc d ↔ ∃ k e offset, d = k :: e ∧
      m.body.labels.offset? label = some offset ∧ Typed program m last n offset e ∧
        Typed program m last n (pc + 1) e := by
  conv_lhs => whnf
  simp only [hi]

theorem typed_call {ref : MethodRef} (hi : m.body.instructions[pc]? = some (.call ref)) :
    Typed program m last (n + 1) pc d ↔ Restarts program m ref ∨
      ∃ callee taken e, program.findMethod? ref.name = some callee ∧ m.PassesTo callee taken ∧
        d = taken ++ e ∧ Typed program m last n (pc + 1) (callee.givenKinds ++ e) := by
  conv_lhs => whnf
  simp only [hi]

theorem typed_ret (hi : m.body.instructions[pc]? = some .ret) :
    Typed program m last (n + 1) pc d ↔ ∃ e, d = m.givenKinds ++ e := by
  conv_lhs => whnf
  simp only [hi]

theorem typed_leave {label : Label} (hi : m.body.instructions[pc]? = some (.leave label)) :
    Typed program m last (n + 1) pc d ↔
      ∃ offset, m.body.labels.offset? label = some offset ∧ Typed program m last n offset [] := by
  conv_lhs => whnf
  simp only [hi]

theorem typed_endFinally (hi : m.body.instructions[pc]? = some .endFinally) :
    Typed program m last (n + 1) pc d := by
  conv => whnf
  simp only [hi]

theorem typed_straight (hi : m.body.instructions[pc]? = some i) (hstraight : i.isStraight = true) :
    Typed program m last (n + 1) pc d ↔ ∃ e, i.Turns m m.body.instructions[pc + 1]? d e ∧
      Typed program m last n (pc + 1) e := by
  conv_lhs => whnf
  cases i <;> simp only [hi] <;> cases hstraight

/-- One instruction of less is enough. -/
theorem Typed.pred (h : Typed program m last (n + 1) pc d) : Typed program m last n pc d := by
  induction n generalizing pc d with
  | zero => trivial
  | succ n ih =>
    cases hi : m.body.instructions[pc]? with
    | none =>
      rw [typed_none hi] at h ⊢
      exact h
    | some i =>
      cases hstraight : i.isStraight with
      | true =>
        rw [typed_straight hi hstraight] at h ⊢
        obtain ⟨e, hturns, hnext⟩ := h
        exact ⟨e, hturns, ih hnext⟩
      | false =>
        cases i with
        | branch =>
          rw [typed_branch hi] at h ⊢
          obtain ⟨offset, hl, hnext⟩ := h
          exact ⟨offset, hl, ih hnext⟩
        | branchIf =>
          rw [typed_branchIf hi] at h ⊢
          obtain ⟨k, e, offset, hd, hl, hjump, hnext⟩ := h
          exact ⟨k, e, offset, hd, hl, ih hjump, ih hnext⟩
        | call =>
          rw [typed_call hi] at h ⊢
          obtain h | ⟨callee, taken, e, hfind, hpasses, hd, hnext⟩ := h
          · exact .inl h
          · exact .inr ⟨callee, taken, e, hfind, hpasses, hd, ih hnext⟩
        | ret =>
          rw [typed_ret hi] at h ⊢
          exact h
        | leave =>
          rw [typed_leave hi] at h ⊢
          obtain ⟨offset, hl, hnext⟩ := h
          exact ⟨offset, hl, ih hnext⟩
        | endFinally => exact typed_endFinally hi
        | _ => cases hstraight

/-- What is typed for longer is typed for a shorter time. -/
theorem Typed.mono (h : Typed program m last n pc d) {k : Nat} (hk : k ≤ n) :
    Typed program m last k pc d := by
  induction hk with
  | refl => exact h
  | step _ ih => exact ih h.pred

/-! ## Straight-line code -/

/-- Straight-line code turns the kinds on the stack into others. -/
def Turns (m : Method) : List Instruction → List Kind → List Kind → Prop
  | [], d, e => d = e
  | i :: code, d, e =>
    i.isStraight = true ∧ ∃ d', i.Turns m code.head? d d' ∧ Turns m code d' e

namespace Turns

theorem single (hstraight : i.isStraight = true) (h : i.Turns m none d e) : m.Turns [i] d e :=
  ⟨hstraight, e, h, rfl⟩

theorem append {d' : List Kind} (h : m.Turns code d d') (h' : m.Turns code' d' e) :
    m.Turns (code ++ code') d e := by
  induction code generalizing d with
  | nil =>
    obtain rfl : d = d' := h
    exact h'
  | cons i code ih =>
    obtain ⟨hstraight, f, hi, h⟩ := h
    refine ⟨hstraight, f, ?_, ih h⟩
    cases code with
    | nil => exact hi.before _
    | cons => exact hi

/-- Straight-line code leads from one typed place to another. -/
theorem typed (h : m.Turns code d e) (hcode : m.HasCode pc code)
    (hafter : Typed program m last n (pc + code.length) e) : Typed program m last n pc d := by
  induction code generalizing pc d with
  | nil =>
    obtain rfl : d = e := h
    exact hafter
  | cons i code ih =>
    obtain ⟨hstraight, f, hi, h⟩ := h
    rw [List.length_cons, ← Nat.add_assoc, Nat.add_right_comm] at hafter
    have hrest := ih h hcode.tail hafter
    refine Typed.pred ((typed_straight hcode.head hstraight).2 ⟨f, ?_, hrest⟩)
    cases code with
    | nil => exact hi.before _
    | cons j code =>
      rw [hcode.tail.head]
      exact hi

end Turns

end Method

end ManagedC
