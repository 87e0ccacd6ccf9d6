import ManagedC.Proofs.Run.Passages

/-!
# What lies below the operands

An instruction takes its operands off the stack and pushes what it gives; what lies below stays as it
is. So does what lies below the values that the code of an expression leaves: a call that comes to the
end of such code has the same stack there as before, with the values on top. Main statements: for
straight-line code `Activation.Performs.frame`, and for expressions `Emission.Code.frame`, which also
says that the call comes through the end of the code whenever it comes behind it.
-/

namespace ManagedC

open Activation

namespace Activation

variable {program : Module} {a b c : Activation} {s t u : Store} {i : Instruction}
  {code code' : List Instruction}

/-- An instruction leaves what lies below its operands as it is. -/
theorem Executes.frame (h : a.Executes s i b t) :
    ∃ given, given.length = i.gives ∧ b.stack = given ++ a.stack.drop i.takes := by
  cases h with
  | @onTop _ _ _ w _ hf hs _ =>
    refine ⟨[w], ?_⟩
    cases i <;> simp only [Instruction.onTop?, reduceCtorEq] at hf <;>
      simp [hs, advance, jump, Instruction.takes, Instruction.gives]
  | @onTop2 _ _ _ _ w _ hf hs _ =>
    refine ⟨[w], ?_⟩
    cases i <;> simp only [Instruction.onTop2?, reduceCtorEq] at hf <;>
      simp [hs, advance, jump, Instruction.takes, Instruction.gives]
  | callHelper _ hcall => exact ⟨_, Access.length_callHelper hcall, rfl⟩
  | nop | branch => exact ⟨[], rfl, rfl⟩
  | loadArgument | loadLocal | constInt32 | constInt64 | loadNull => exact ⟨[_], rfl, rfl⟩
  | storeArgument hs | storeLocal hs | pop hs | branchTaken hs | branchPassed hs | store hs =>
    exact ⟨[], rfl, by simp [hs, advance, jump, Instruction.takes]⟩
  | @dup v _ hs => exact ⟨[v, v], rfl, by simp [hs, advance, jump, Instruction.takes]⟩
  | @newArray _ _ w _ _ hs | @elementAddress _ _ _ w _ _ _ hs | @load _ _ w _ _ hs =>
    exact ⟨[w], rfl, by simp [hs, advance, jump, Instruction.takes]⟩
  | arrayLength hs => exact ⟨[_], rfl, by simp [hs, advance, jump, Instruction.takes]; rfl⟩

/-- An instruction that finds its operands among the topmost values changes only those. -/
theorem Executes.stack_append {top base : List Value} (h : a.Executes s i b t)
    (ha : a.stack = top ++ base) (htop : i.takes ≤ top.length) :
    ∃ top', b.stack = top' ++ base ∧ top'.length = top.length - i.takes + i.gives := by
  obtain ⟨given, hgiven, hb⟩ := h.frame
  refine ⟨given ++ top.drop i.takes, ?_, ?_⟩
  · rw [hb, ha, List.drop_append_of_le_length htop, List.append_assoc]
  · rw [List.length_append, List.length_drop, hgiven, Nat.add_comm]

namespace Performs

theorem same (h : a.Performs s code b t) : a.Same b := by
  induction h with
  | nil => exact .refl _
  | cons hexec _ ih => exact hexec.same.trans ih

/-- Code that is gone through is gone through part by part. -/
theorem split (h : a.Performs s (code ++ code') c u) :
    ∃ b t, a.Performs s code b t ∧ b.Performs t code' c u := by
  induction code generalizing a s with
  | nil => exact ⟨a, s, .nil, h⟩
  | cons i code ih =>
    cases h with
    | cons hexec hrest =>
      obtain ⟨b, t, hfirst, hsecond⟩ := ih hrest
      exact ⟨b, t, .cons hexec hfirst, hsecond⟩

/-- Straight-line code leaves what lies below its operands as it is. -/
theorem frame {M : Method} {top base : List Value} {height : Nat} (h : a.Performs s code b t)
    (hruns : M.Runs code top.length height) (ha : a.stack = top ++ base) :
    ∃ top', b.stack = top' ++ base ∧ top'.length = height := by
  induction h generalizing top with
  | nil => exact ⟨top, ha, hruns⟩
  | cons hexec _ ih =>
    obtain ⟨-, -, htakes, hruns⟩ := hruns
    obtain ⟨top', hb, htop'⟩ := hexec.stack_append ha htakes
    exact ih (htop' ▸ hruns) hb

end Performs

end Activation

/-- A call that comes behind a place comes to the place first, with so many values on top of what the
stack held. -/
structure Activation.ComesThrough (program : Module) (stop place height : Nat) (base : List Value)
    (a : Activation) (s : Store) (c : Activation) (u : Store) (b : Activation) (t : Store) : Prop where
  /-- Control comes to the place. -/
  pc : b.pc = place
  stack : ∃ top, b.stack = top ++ base ∧ top.length = height
  /-- Before that, control does not get to the place. -/
  before : a.Walks program place s b t
  /-- The call goes on from there. -/
  behind : b.Walks program stop t c u

variable {program : Module} {s t : Scope} {a c : Activation} {σ τ : Store} {stop : Nat}

/-- A call that is at a place of the method, with so many values on top of what the stack held, comes to
the end of the method before it comes behind it. The call may be one of a method with more code. -/
def Method.Frames (M : Method) (program : Module) (stop height : Nat) (base : List Value)
    (c : Activation) (τ : Store) (pc k : Nat) : Prop :=
  ∀ (a : Activation) (σ : Store) (top : List Value), M.Extends a.method → a.pc = pc →
    a.stack = top ++ base → top.length = k → a.Walks program stop σ c τ →
    M.body.instructions.size ≤ c.pc →
    ∃ b υ, a.ComesThrough program stop M.body.instructions.size height base σ c τ b υ

theorem Method.frames_carries (M : Method) (program : Module) (stop height : Nat) (base : List Value)
    (c : Activation) (τ : Store) : M.Carries program (M.Frames program stop height base c τ) := by
  -- Whatever the instruction is, the call makes a step from it, since it comes behind all of them.
  have hstep : ∀ {pc k : Nat} {i : Instruction}, M.body.instructions[pc]? = some i →
      (∀ (a b : Activation) (σ υ : Store) (top : List Value), M.Extends a.method → a.pc = pc →
        a.stack = top ++ base → top.length = k → a.instruction? = some i →
        a.Moves program σ b υ → ∃ pc' k' top', b.pc = pc' ∧ b.stack = top' ++ base ∧
          top'.length = k' ∧ M.Frames program stop height base c τ pc' k') →
      M.Frames program stop height base c τ pc k := by
    intro pc k i hi hmoves a σ top hM hpc ha htop hwalks hc
    have hlt := (Array.getElem?_eq_some_iff.1 hi).1
    cases hwalks with
    | refl => omega
    | @step _ b _ _ υ _ hstop hmove hrest =>
      have hinstruction : a.instruction? = some i := hM.instruction (hpc ▸ hi)
      obtain ⟨pc', k', top', hpc', hb, htop', hframes⟩ :=
        hmoves a b σ υ top hM hpc ha htop hinstruction hmove
      obtain ⟨d, υ', hd⟩ := hframes b υ top' (hmove.same.method ▸ hM) hpc' hb htop' hrest hc
      exact ⟨d, υ', hd.pc, hd.stack, .step (by omega) hmove hd.before, hd.behind⟩
  refine ⟨?_, ?_, ?_, ?_⟩
  · intro pc k i hi hstraight _ htakes hnext
    refine hstep hi fun a b σ υ top hM hpc ha htop hinstruction hmove => ?_
    cases hmove with
    | executed hj _ hexec =>
      obtain rfl := Option.some.inj (hinstruction.symm.trans hj)
      obtain ⟨top', hb, htop'⟩ := hexec.stack_append ha (htop ▸ htakes)
      exact ⟨_, _, top', by rw [hexec.pc_of_isStraight hstraight, hpc], hb, htop ▸ htop', hnext⟩
    | called hj | left hj =>
      obtain rfl := Option.some.inj (hinstruction.symm.trans hj)
      cases hstraight
  · intro pc k target offset hi hl hnext
    refine hstep hi fun a b σ υ top hM hpc ha htop hinstruction hmove => ?_
    cases hmove with
    | executed hj _ hexec =>
      obtain rfl := Option.some.inj (hinstruction.symm.trans hj)
      cases hexec with
      | onTop hf | onTop2 hf => cases hf
      | branch hoffset =>
        rw [hM.labels _ _ hl] at hoffset
        cases hoffset
        exact ⟨_, _, top, rfl, ha, htop, hnext⟩
    | called hj | left hj => cases hinstruction.symm.trans hj
  · intro pc k condition target offset hi hl hnext hnext'
    refine hstep hi fun a b σ υ top hM hpc ha htop hinstruction hmove => ?_
    cases hmove with
    | executed hj _ hexec =>
      obtain rfl := Option.some.inj (hinstruction.symm.trans hj)
      obtain ⟨top', hb, htop'⟩ := hexec.stack_append ha (show 1 ≤ _ by omega)
      rw [htop] at htop'
      cases hexec with
      | onTop hf | onTop2 hf => cases hf
      | branchTaken _ _ hoffset =>
        rw [hM.labels _ _ hl] at hoffset
        cases hoffset
        exact ⟨_, _, top', rfl, hb, htop', hnext⟩
      | branchPassed => exact ⟨_, _, top', congrArg (· + 1) hpc, hb, htop', hnext'⟩
    | called hj | left hj => cases hinstruction.symm.trans hj
  · intro pc k ref callee hi hfind hnext
    refine hstep hi fun a b σ υ top hM hpc ha htop hinstruction hmove => ?_
    cases hmove with
    | executed hj hcontrol =>
      obtain rfl := Option.some.inj (hinstruction.symm.trans hj)
      cases hcontrol
    | @called _ m value _ hj hm hlength hvalue =>
      cases hinstruction.symm.trans hj
      obtain rfl := Option.some.inj (hm.symm.trans hfind)
      refine ⟨_, _, value.toList ++ top.drop m.parameters.length, congrArg (· + 1) hpc, ?_, ?_, hnext⟩
      · show value.toList ++ a.stack.drop m.parameters.length = _
        rw [ha, List.drop_append_of_le_length (by omega), List.append_assoc]
      · rw [List.length_append, List.length_drop, hvalue, htop]
        omega
    | left hj => cases hinstruction.symm.trans hj

/-- A call that comes behind the code of an expression comes to the end of the code first, and there the
values of the expression lie on what the stack held before. -/
theorem Emission.Code.frame {e : Emission} (h : e.Code s t) (hM : t.assembler.method.Extends a.method)
    (hs : s.Fits program t.assembler.method) (hpass : e.Passable) (hpc : a.pc = s.offset)
    (hwalks : a.Walks program stop σ c τ) (hc : t.offset ≤ c.pc) :
    ∃ b υ, a.ComesThrough program stop t.offset e.width a.stack σ c τ b υ := by
  have hend : t.assembler.method.Frames program stop e.width a.stack c τ t.offset (0 + e.width) := by
    intro b υ top _ hpc hb htop hrest _
    exact ⟨b, υ, hpc, ⟨top, hb, by omega⟩, .refl, hrest⟩
  have hstart := h.carry (Method.frames_carries _ _ _ _ _ _ _) (.refl _) hs hpass hend
  exact hstart a σ [] hM hpc rfl rfl hwalks hc

end ManagedC
