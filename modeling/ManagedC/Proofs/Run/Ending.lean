import ManagedC.Machine.Session

/-!
# How runs end

`Progress.Ends` says what a run ends with. It is the view of `Run.iterate` that proofs use: there is
no fuel in it, and a run that has an ending has only one (`Progress.Ends.unique`). Main statement: a
run over the step limit ends with that fault and no other (`Progress.Ends.outOfSteps`).
-/

namespace ManagedC

/-- What a run ends with: the result, the store and the number of instructions executed. -/
abbrev Ending := CallResult × Store × Nat

variable {program : Module} {limits : Limits}

/-- A run that has come as far as `p` ends with an ending. -/
inductive Progress.Ends (program : Module) (limits : Limits) : Progress → Ending → Prop where
  /-- The run has ended. -/
  | done {result : CallResult} {store : Store} {steps : Nat} :
    Ends program limits (.done result store steps) (result, store, steps)
  /-- The run goes on with a step. -/
  | more {r : Run} {o : Ending} :
    Ends program limits (r.step program limits) o → Ends program limits (.more r) o

namespace Progress.Ends

/-- A run has one ending. -/
theorem unique {p : Progress} {o o' : Ending} (h : Ends program limits p o)
    (h' : Ends program limits p o') : o = o' := by
  induction h with
  | done => cases h'; rfl
  | more _ ih => cases h' with | more h' => exact ih h'

theorem more_iff {r : Run} {o : Ending} :
    Ends program limits (.more r) o ↔ Ends program limits (r.step program limits) o :=
  ⟨fun h => by cases h; assumption, .more⟩

theorem of_iterate {fuel : Nat} {r : Run} {o : Ending} (h : r.iterate program limits fuel = some o) :
    Ends program limits (.more r) o := by
  induction fuel generalizing r with
  | zero => simp [Run.iterate] at h
  | succ n ih =>
    refine .more ?_
    rw [Run.iterate] at h
    split at h
    · rename_i heq
      rw [heq]
      cases h
      exact .done
    · rename_i heq
      rw [heq]
      exact ih h

end Progress.Ends

/-- The call ended because too many instructions were to be executed. -/
def CallResult.OutOfSteps (result : CallResult) : Prop :=
  ∃ c n, result = .error c ∧ c.fault = .stepLimitExceeded n

/-- The run is over the step limit, or has ended because of it. -/
def Progress.Spent (limits : Limits) : Progress → Prop
  | .more r => limits.steps ≤ r.steps
  | .done result _ _ => CallResult.OutOfSteps result

/-- The regions of a call that protect the instruction it is at. -/
def Activation.covering (a : Activation) : List Region := a.regions.filter (·.protects a.pc)

namespace Run

/-- What happens when the call in progress ends with a result while others wait. -/
def resume (callers : List Activation) (result : CallResult) (store : Store) (steps : Nat) :
    Progress :=
  match callers, result with
  | [], result => .done result store steps
  | caller :: callers, .ok (some v) => .more ⟨store, steps, (caller.push v).advance, callers⟩
  | caller :: callers, .ok none => .more ⟨store, steps, caller.advance, callers⟩
  | caller :: callers, .error c => raise store steps c caller callers

theorem finish_eq_resume (r : Run) (value : Option Value) :
    r.finish value = resume r.callers (.ok value) (r.current.close r.store) r.steps := by
  unfold finish resume
  cases r.callers <;> cases value <;> rfl

theorem abandon_eq_resume (r : Run) (c : Crash) :
    r.abandon c = resume r.callers (.error c) (r.current.close r.store) r.steps := by
  unfold abandon resume
  cases r.callers <;> rfl

/-- A crash where no region protects the instruction ends the call. -/
theorem raise_of_covering_nil {store : Store} {steps : Nat} {c : Crash} {a : Activation}
    {callers : List Activation} (h : a.covering = []) :
    raise store steps c a callers = resume callers (.error c) (a.close store) steps := by
  unfold Activation.covering at h
  cases callers <;> simp [raise, resume, Activation.runHandlers, h]

/-- A crash where a region protects the instruction runs the handler of the innermost one. -/
theorem raise_of_covering_cons {store : Store} {steps : Nat} {c : Crash} {a : Activation}
    {callers : List Activation} {region : Region} {rest : List Region}
    (h : a.covering = region :: rest) :
    raise store steps c a callers = .more ⟨store, steps, { a with
      stack := []
      pc := region.handlerStart
      pending := ⟨region.handlerStart, rest, .fail c⟩ :: a.pending }, callers⟩ := by
  unfold Activation.covering at h
  cases callers <;> simp [raise, Activation.runHandlers, h]

/-- A crash begins a handler or ends the outermost call. No instruction is counted. -/
theorem raise_cases (store : Store) (steps : Nat) (c : Crash) (a : Activation)
    (callers : List Activation) :
    (∃ r, raise store steps c a callers = .more r ∧ r.steps = steps) ∨
      ∃ t, raise store steps c a callers = .done (.error c) t steps := by
  induction callers generalizing store a with
  | nil =>
    cases hcover : a.covering with
    | cons region rest => exact .inl ⟨_, raise_of_covering_cons hcover, rfl⟩
    | nil => exact .inr ⟨_, raise_of_covering_nil hcover⟩
  | cons caller callers ih =>
    cases hcover : a.covering with
    | cons region rest => exact .inl ⟨_, raise_of_covering_cons hcover, rfl⟩
    | nil =>
      rw [raise_of_covering_nil hcover]
      exact ih _ caller

theorem step_of_limit {r : Run} (h : limits.steps ≤ r.steps) : r.step program limits =
    raise r.store r.steps (r.current.crash (.stepLimitExceeded limits.steps)) r.current r.callers := by
  unfold step
  rw [if_pos h]
  rfl

end Run

namespace Progress.Ends

/-- A run over the step limit ends with the fault of that limit, whatever its handlers do. -/
theorem of_limit {p : Progress} {o : Ending} (h : p.Ends program limits o) :
    ∀ r, p = .more r → limits.steps ≤ r.steps →
      ∃ c, o.1 = .error c ∧ c.fault = .stepLimitExceeded limits.steps := by
  induction h with
  | done => rintro r ⟨⟩
  | @more r o hends ih =>
    rintro _ ⟨⟩ hlimit
    rw [Run.step_of_limit hlimit] at hends ih
    -- Either a handler begins, and no instruction was counted, or the crash comes out.
    rcases Run.raise_cases r.store r.steps (r.current.crash (.stepLimitExceeded limits.steps))
      r.current r.callers with ⟨r', hmore, hsteps⟩ | ⟨t, hdone⟩
    · exact ih r' hmore (Nat.le_trans hlimit (Nat.le_of_eq hsteps.symm))
    · rw [hdone] at hends
      cases hends
      exact ⟨_, rfl, rfl⟩

/-- A run over the step limit ends because of it. -/
theorem outOfSteps {p : Progress} {o : Ending} (h : p.Ends program limits o)
    (hp : p.Spent limits) : CallResult.OutOfSteps o.1 := by
  match p, hp with
  | .done _ _ _, hp =>
    cases h
    exact hp
  | .more r, hp =>
    obtain ⟨c, hresult, hfault⟩ := h.of_limit r rfl hp
    exact ⟨c, _, hresult, hfault⟩

end Progress.Ends

end ManagedC
