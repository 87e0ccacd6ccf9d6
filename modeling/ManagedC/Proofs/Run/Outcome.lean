import ManagedC.Proofs.Run.Step

/-!
# What is true at the end of a run

`Progress.Finally` says that a run which does not run out of steps ends as a postcondition says, and
`Progress.Eventually` that a run has enough steps and ends so. Both are proved backwards, one step at a
time. Main statements: it is enough that they hold after the step that the machine makes
(`Progress.Finally.step`, `Progress.Eventually.step`), or after several instructions inside the call
(`Progress.Finally.executes`, `Progress.Eventually.executes`).
-/

namespace ManagedC

variable {program : Module} {limits : Limits} {post : CallResult → Store → Prop}

/-- A number of instructions inside the call are executed one after the other. -/
inductive Activation.ExecutesAll : Nat → Activation → Store → Activation → Store → Prop where
  | nil {a : Activation} {s : Store} : ExecutesAll 0 a s a s
  | cons {n : Nat} {i : Instruction} {a b c : Activation} {s t u : Store} : a.instruction? = some i →
    i.isControl = false → a.Executes s i b t → ExecutesAll n b t c u → ExecutesAll (n + 1) a s c u

namespace Progress

/-- If the run has an ending, and steps do not run out, the postcondition holds of it. -/
def Finally (program : Module) (limits : Limits) (post : CallResult → Store → Prop)
    (p : Progress) : Prop :=
  ∀ o, p.Ends program limits o → CallResult.OutOfSteps o.1 ∨ post o.1 o.2.1

namespace Finally

theorem done {result : CallResult} {store : Store} {steps : Nat} (h : post result store) :
    Finally program limits post (.done result store steps) := by
  intro o ho
  cases ho
  exact .inr h

/-- The postcondition holds in the end if it does after a step. -/
theorem step {r : Run} (h : r.steps < limits.steps →
      ∃ p, r.StepsTo program limits p ∧ Finally program limits post p) :
    Finally program limits post (.more r) := by
  intro o ho
  by_cases hsteps : r.steps < limits.steps
  · obtain ⟨p, hp, hpost⟩ := h hsteps
    have ho := Ends.more_iff.1 ho
    rw [hp.step_eq] at ho
    exact hpost o ho
  · exact .inl (ho.outOfSteps (Nat.le_of_not_lt hsteps))

variable {s t : Store} {steps : Nat} {a b : Activation} {callers : List Activation}
  {i : Instruction}

/-- An instruction inside the call is executed. -/
theorem executed (hi : a.instruction? = some i) (hcontrol : i.isControl = false)
    (h : a.Executes s i b t)
    (hpost : Finally program limits post (.more ⟨t, steps + 1, b, callers⟩)) :
    Finally program limits post (.more ⟨s, steps, a, callers⟩) :=
  step fun hsteps => ⟨_, .executed hsteps hi hcontrol h, hpost⟩

/-- Instructions inside the call are executed. -/
theorem executes {n : Nat} (h : Activation.ExecutesAll n a s b t)
    (hpost : ∀ steps, Finally program limits post (.more ⟨t, steps, b, callers⟩)) :
    Finally program limits post (.more ⟨s, steps, a, callers⟩) := by
  induction h generalizing steps with
  | nil => exact hpost steps
  | cons hi hcontrol hexec _ ih => exact executed hi hcontrol hexec (ih hpost)

end Finally

/-- The run has an ending, and the postcondition holds of it. -/
def Eventually (program : Module) (limits : Limits) (post : CallResult → Store → Prop)
    (p : Progress) : Prop :=
  ∃ o, p.Ends program limits o ∧ post o.1 o.2.1

namespace Eventually

variable {r : Run} {p : Progress}

theorem done {result : CallResult} {store : Store} {steps : Nat} (h : post result store) :
    Eventually program limits post (.done result store steps) := ⟨_, .done, h⟩

/-- A run ends as it does after a step. -/
theorem step (hstep : r.StepsTo program limits p) (h : p.Eventually program limits post) :
    Eventually program limits post (.more r) := by
  obtain ⟨o, ho, hpost⟩ := h
  refine ⟨o, .more ?_, hpost⟩
  rwa [hstep.step_eq]

variable {s t : Store} {steps : Nat} {a b : Activation} {callers : List Activation}
  {i : Instruction}

/-- An instruction inside the call is executed. -/
theorem executed (hlimit : steps < limits.steps) (hi : a.instruction? = some i)
    (hcontrol : i.isControl = false) (h : a.Executes s i b t)
    (hpost : Eventually program limits post (.more ⟨t, steps + 1, b, callers⟩)) :
    Eventually program limits post (.more ⟨s, steps, a, callers⟩) :=
  step (.executed hlimit hi hcontrol h) hpost

/-- Instructions inside the call are executed. -/
theorem executes {n : Nat} (h : Activation.ExecutesAll n a s b t) (hlimit : steps + n ≤ limits.steps)
    (hpost : Eventually program limits post (.more ⟨t, steps + n, b, callers⟩)) :
    Eventually program limits post (.more ⟨s, steps, a, callers⟩) := by
  induction h generalizing steps with
  | nil => exact hpost
  | @cons n i a b c s t u hi hcontrol hexec _ ih =>
    refine executed (by omega) hi hcontrol hexec (ih (by omega) ?_)
    rwa [Nat.add_right_comm, Nat.add_assoc]

end Eventually

end Progress

end ManagedC
