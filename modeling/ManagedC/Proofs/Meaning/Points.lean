import ManagedC.Proofs.Meaning.Variables

/-!
# Points in the run of a function

A point is a place in the code of a function with what is there when control is at it: the variables under
the names that they have there, and the stack. One point leads to another if every call of the function
that is at the first comes to the second. Points are put together along the code: the code that is
appended to a scope leads from its end to the new end (`Scope.leads_append`), a bound label is the
point that it is bound at (`Scope.Binds.point`), and jumps lead to the places of their labels.
-/

namespace ManagedC

open Meaning

/-- A place in the code of a function, the variables and the stack. -/
structure Meaning.Point where
  /-- The names of the variables. -/
  names : Names
  /-- The variables. -/
  frame : Frame
  /-- The number of the next instruction. -/
  pc : Nat
  /-- The stack. -/
  stack : List Value

/-- A call of a function is at a point. -/
structure Activation.At (F : CompiledFunction) (a : Activation) (p : Point) : Prop where
  holds : a.Holds F p.names p.frame
  pc : a.pc = p.pc
  stack : a.stack = p.stack

/-- A call of a function comes to a point. -/
def Activation.Comes (program : Module) (F : CompiledFunction) (a : Activation) (p : Point) : Prop :=
  ∃ b : Activation, a.Reaches program b ∧ b.At F p

/-- Every call of a function that is at one point comes to another. -/
def Meaning.Point.Leads (program : Module) (F : CompiledFunction) (p q : Point) : Prop :=
  ∀ a : Activation, a.At F p → a.Comes program F q

/-- Every call of a function that is at a point comes to its return with a value. -/
def Meaning.Point.Returns (program : Module) (F : CompiledFunction) (p : Point)
    (value : Option Value) : Prop :=
  ∀ a : Activation, a.At F p → ∃ b : Activation, a.Reaches program b ∧ b.Returning value

/-- The end of the code of a scope as a point. -/
def Scope.point (s : Scope) (f : Frame) (stack : List Value) : Point := ⟨s.names, f, s.offset, stack⟩

/-- Every label that the method of a function jumps to is bound. -/
theorem CompiledFunction.bound_target (F : CompiledFunction) {pc : Nat} {i : Instruction}
    {label : Label} (hi : F.method.body.instructions[pc]? = some i) (ht : i.target? = some label) :
    ∃ offset, F.method.body.labels.offset? label = some offset := by
  obtain ⟨u, returnType, signature, functions, method, hreturns, hdeclared, hcode⟩ := F
  dsimp only at *
  cases hcode with
  | @mk s t _ _ hunbound =>
    generalize (t.append [] u.epilogue).assembler = assembler at *
    have hnone := List.min?_eq_none_iff.1 hunbound
    have hmem : label ∈ assembler.method.body.instructions.toList.filterMap Instruction.target? :=
      List.mem_filterMap.2 ⟨i, Array.mem_toList_iff.2 (Array.mem_of_getElem? hi), ht⟩
    have hbound := List.filter_eq_nil_iff.1 hnone label hmem
    exact Option.ne_none_iff_exists'.1 (by simpa [LabelTable.isBound] using hbound)

namespace Activation

variable {program : Module} {F : CompiledFunction} {a b : Activation} {p q : Point}

theorem Reaches.comes (h : a.Reaches program b) (h' : b.Comes program F p) : a.Comes program F p := by
  obtain ⟨c, hbc, hc⟩ := h'
  exact ⟨c, h.trans hbc, hc⟩

theorem Comes.leads (h : a.Comes program F p) (h' : p.Leads program F q) : a.Comes program F q := by
  obtain ⟨b, hab, hb⟩ := h
  exact hab.comes (h' b hb)

/-- The latest variables can be forgotten. -/
theorem Comes.drop {names : Names} {inner g : Frame} {pc : Nat} {stack : List Value}
    (h : a.Comes program F ⟨names, inner ++ g, pc, stack⟩) {outer : Names} (hnames : outer <:+ names)
    (hlength : g.length = outer.length) : a.Comes program F ⟨outer, g, pc, stack⟩ := by
  obtain ⟨b, hab, hb⟩ := h
  exact ⟨b, hab, hb.holds.drop hnames hlength, hb.pc, hb.stack⟩

end Activation

namespace Meaning.Point

variable {program : Module} {F : CompiledFunction} {p q r : Point} {value : Option Value}

theorem Leads.refl (p : Point) : p.Leads program F p := fun a ha => ⟨a, .refl a, ha⟩

theorem Leads.trans (h : p.Leads program F q) (h' : q.Leads program F r) : p.Leads program F r := by
  intro a ha
  exact (h a ha).leads h'

/-- Code without jumps leads to the place behind it. -/
theorem leads_code {code : List Instruction} (hcode : F.method.HasCode p.pc code)
    (hpc : q.pc = p.pc + code.length)
    (h : ∀ a : Activation, a.At F p → ∃ b : Activation, (∀ s, a.Follows s code b) ∧
      b.Holds F q.names q.frame ∧ b.stack = q.stack) : p.Leads program F q := by
  intro a ha
  obtain ⟨b, hfollows, hholds, hstack⟩ := h a ha
  have hbpc := (hfollows default).pc
  rw [ha.pc] at hbpc
  refine ⟨b, .follows ?_ hfollows, hholds, by rw [hbpc, hpc], hstack⟩
  rw [ha.holds.method, ha.pc]
  exact hcode

variable {names : Names} {f : Frame} {pc target : Nat} {stack : List Value} {label : Label}

theorem leads_branch (hi : F.method.body.instructions[pc]? = some (.branch label))
    (ht : F.method.body.labels.offset? label = some target) :
    Leads program F ⟨names, f, pc, stack⟩ ⟨names, f, target, stack⟩ := by
  rintro a ⟨hholds, rfl, rfl⟩
  refine ⟨a.jump target, .of_executes (i := .branch label) ?_ rfl fun s => .branch ?_,
    hholds.move a.stack target, rfl, rfl⟩
  · rw [Activation.instruction?, hholds.method]
    exact hi
  · rw [hholds.method]
    exact ht

/-- A jump on a condition is made if the number on the stack meets the condition. -/
theorem leads_branchIf {condition : Bool} {n : Number}
    (hi : F.method.body.instructions[pc]? = some (.branchIf condition label))
    (ht : F.method.body.labels.offset? label = some target) :
    Leads program F ⟨names, f, pc, n.toValue :: stack⟩
      ⟨names, f, if n.isTrue = condition then target else pc + 1, stack⟩ := by
  rintro a ⟨hholds, rfl, hstack⟩
  have hinstruction : a.instruction? = some (.branchIf condition label) := by
    rw [Activation.instruction?, hholds.method]
    exact hi
  by_cases hn : n.isTrue = condition
  · rw [if_pos hn]
    refine ⟨{ a with stack := stack }.jump target, .of_executes hinstruction rfl fun s =>
      .branchTaken hstack (n.isTrue_toValue.trans hn) ?_, hholds.move stack target, rfl, rfl⟩
    rw [hholds.method]
    exact ht
  · rw [if_neg hn]
    exact ⟨{ a with stack := stack }.advance, .of_executes hinstruction rfl fun s =>
      .branchPassed hstack (n.isTrue_toValue ▸ hn), hholds.move stack (a.pc + 1), rfl, rfl⟩

end Meaning.Point

namespace Scope

open Meaning.Point

variable {program : Module} {F : CompiledFunction} {s t : Scope} {f g : Frame}
  {stack stack' : List Value} {ts : List TargetType} {code : List Instruction} {label : Label}

/-- Code that is appended leads to the new end. -/
theorem leads_append (hM : (s.append ts code).assembler.method.Extends F.method)
    (h : ∀ a : Activation, a.At F (s.point f stack) → ∃ b : Activation,
      (∀ store, a.Follows store code b) ∧ b.Holds F s.names g ∧ b.stack = stack') :
    (s.point f stack).Leads program F ((s.append ts code).point g stack') :=
  leads_code (hasCode_append hM) (offset_append ..) h

/-- Code that works on the stack alone leads to the new end. -/
theorem leads_append_stack (hM : (s.append ts code).assembler.method.Extends F.method)
    (h : ∀ (a : Activation) (store : Store), a.stack = stack →
      a.Follows store code { a with stack := stack', pc := a.pc + code.length }) :
    (s.point f stack).Leads program F ((s.append ts code).point f stack') :=
  leads_append hM fun a ha =>
    ⟨_, fun store => h a store ha.stack, ha.holds.move stack' (a.pc + code.length), rfl⟩

theorem Emits.point (h : s.Emits t) (f : Frame) (stack : List Value) :
    t.point f stack = ⟨s.names, f, t.offset, stack⟩ := by
  unfold Scope.point
  rw [h.names]

/-- A label is bound at a point. -/
theorem Binds.point (h : s.Binds label t) (f : Frame) (stack : List Value) :
    t.point f stack = s.point f stack := by
  unfold Scope.point
  rw [h.emits.names, h.offset]

end Scope

end ManagedC
