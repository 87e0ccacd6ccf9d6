import ManagedC.Proofs.Run.Leads
import ManagedC.Proofs.Stack.Height

/-!
# Straight-line code

Code without jumps is run one instruction after the other. `Activation.Follows` says what it does to a
call when it leaves the store alone, and a machine that has steps enough goes along with it
(`Run.LeadsBy.follows`). What the code that moves a pointer does is one lemma for every size of a step
(`Activation.follows_movePointer`).
-/

namespace ManagedC

namespace Activation

/-- A call goes through code one instruction after the other, and the store is left alone. -/
inductive Follows (s : Store) : Activation → List Instruction → Activation → Prop where
  | nil {a : Activation} : Follows s a [] a
  /-- An instruction is executed, and control goes to the next one. -/
  | cons {a b c : Activation} {i : Instruction} {code : List Instruction} :
    i.isControl = false → a.Executes s i b s → b.pc = a.pc + 1 → Follows s b code c →
    Follows s a (i :: code) c

namespace Follows

variable {s : Store} {a b c : Activation} {code code' : List Instruction}

theorem append (h : Follows s a code b) (h' : Follows s b code' c) :
    Follows s a (code ++ code') c := by
  induction h with
  | nil => exact h'
  | cons hi hexec hpc _ ih => exact .cons hi hexec hpc (ih h')

/-- What the code leaves alone. -/
theorem same (h : Follows s a code b) : a.Same b := by
  induction h with
  | nil => exact .refl _
  | cons _ hexec _ _ ih => exact hexec.same.trans ih

theorem pc (h : Follows s a code b) : b.pc = a.pc + code.length := by
  induction h with
  | nil => rfl
  | cons _ _ hpc _ ih => rw [ih, hpc, List.length_cons]; omega

end Follows

end Activation

namespace Run.LeadsBy

variable {program : Module} {limits : Limits} {P : Run → Prop} {s : Store} {a b : Activation}
  {code : List Instruction} {callers : List Activation} {steps : Nat}

/-- The machine goes along with straight-line code. -/
theorem follows (h : a.Follows s code b) (hcode : a.method.HasCode a.pc code)
    (hlimit : steps + code.length ≤ limits.steps)
    (hP : ∀ steps a i, i ∈ code → a.instruction? = some i → P ⟨s, steps, a, callers⟩) :
    LeadsBy program limits P ⟨s, steps, a, callers⟩ ⟨s, steps + code.length, b, callers⟩ := by
  induction h generalizing steps with
  | nil => exact .refl
  | @cons a a' c i code hi hexec hpc _ ih =>
    rw [List.length_cons] at hlimit ⊢
    have hinstruction : a.instruction? = some i := hcode.head
    have hstep : Run.StepsTo program limits ⟨s, steps, a, callers⟩ (.more ⟨s, steps + 1, a', callers⟩) :=
      .executed (by show steps < limits.steps; omega) hinstruction hi hexec
    have htail : a'.method.HasCode a'.pc code := by
      rw [hpc, hexec.same.method]
      exact hcode.tail
    have hrest : LeadsBy program limits P ⟨s, steps + 1, a', callers⟩
        ⟨s, steps + 1 + code.length, c, callers⟩ :=
      ih htail (by omega) (fun n a i hmem => hP n a i (List.mem_cons_of_mem _ hmem))
    rw [Nat.add_assoc, Nat.add_comm 1] at hrest
    exact .step (hP _ _ _ List.mem_cons_self hinstruction) hstep.step_eq hrest

end Run.LeadsBy

namespace Activation

variable {s : Store} {a : Activation} {rest : List Value}

/-- The number of bytes that a number of steps is. -/
theorem follows_scaling {n : Int64} {size : Int32} (ha : a.stack = .int n :: rest) :
    a.Follows s (scaling size) { a with
      stack := .int (n * size.toInt64) :: rest
      pc := a.pc + (scaling size).length } := by
  by_cases hsize : size = 1
  · subst hsize
    have hone : n * (1 : Int32).toInt64 = n := Int64.mul_one n
    rw [hone]
    exact .cons rfl (.onTop rfl ha rfl) rfl .nil
  · have hcode : scaling size = [.convNative, .constInt32 size, .convNative, .binary .mul] := by
      unfold scaling
      rw [if_pos hsize]
    rw [hcode]
    exact .cons rfl (.onTop rfl ha rfl) rfl (.cons rfl .constInt32 rfl
      (.cons rfl (.onTop rfl rfl rfl) rfl (.cons rfl (.onTop2 rfl rfl rfl) rfl .nil)))

/-- A pointer is moved by a number of steps. -/
theorem follows_movePointer {n : Int64} {p : Pointer} {size : Int32}
    (ha : a.stack = .int n :: .pointer p :: rest) :
    a.Follows s (scaling size ++ [.binary .add]) { a with
      stack := .pointer (p.move (n * size.toInt64)) :: rest
      pc := a.pc + ((scaling size).length + 1) } := by
  refine (follows_scaling ha).append ?_
  exact .cons rfl (.onTop2 rfl rfl rfl) rfl .nil

end Activation

end ManagedC
