import ManagedC.Proofs.Cleanup.Guests
import ManagedC.Proofs.Run.Straight
import ManagedC.Proofs.Run.Termination

/-!
# What a call comes to

`Activation.Reaches` says that a call comes from one state to another while it leaves the store alone,
whatever calls wait for it, if the machine has steps enough and room for the calls that are made on the
way. A call that comes to its return in this way has a value (`Method.Answers`). Main statements: the
caller goes on with the value (`Activation.Reaches.call`), and a session gets it
(`Method.Answers.invoke`).
-/

namespace ManagedC

variable {program : Module}

/-- A call comes from one state to another with the store left alone, if so many steps may be made and
so many more calls may be in progress. -/
def Activation.Reaches (program : Module) (a b : Activation) : Prop :=
  ∃ n d, ∀ (limits : Limits) (store : Store) (steps : Nat) (callers : List Activation),
    steps + n ≤ limits.steps → store.depth + d ≤ limits.depth →
      Run.Leads program limits ⟨store, steps, a, callers⟩ ⟨store, steps + n, b, callers⟩

/-- A call is at its return, with a value that it returns and nothing to clean up. -/
structure Activation.Returning (a : Activation) (value : Option Value) : Prop where
  instruction : a.instruction? = some .ret
  returns : a.Returns value
  /-- No handler is on its way. -/
  pending : a.pending = []
  unpinned : ∀ s, a.releasePins s = s

/-- The counter is back where it was before the call. -/
theorem Activation.Returning.close_opened {a : Activation} {value : Option Value}
    (h : a.Returning value) (s : Store) : a.close s.opened = s := h.unpinned s

/-- The start of a call of a method without handlers. -/
def Method.start (m : Method) (arguments : List Value) : Activation :=
  ⟨m, [], arguments.toArray, m.locals.map fun v => .zeroOf v.type, [], 0, []⟩

/-- A call of a method returns a value, with the store left alone. -/
def Method.Answers (program : Module) (m : Method) (arguments : List Value) (value : Option Value) :
    Prop :=
  ∃ last : Activation, (m.start arguments).Reaches program last ∧ last.Returning value

namespace Activation.Reaches

variable {a b c : Activation}

theorem refl (a : Activation) : a.Reaches program a := ⟨0, 0, fun _ _ _ _ _ _ => .refl⟩

theorem trans (h : a.Reaches program b) (h' : b.Reaches program c) : a.Reaches program c := by
  obtain ⟨n, d, h⟩ := h
  obtain ⟨n', d', h'⟩ := h'
  refine ⟨n + n', max d d', fun limits store steps callers hsteps hdepth => ?_⟩
  have hfirst := h limits store steps callers (by omega) (by omega)
  have hsecond := h' limits store (steps + n) callers (by omega) (by omega)
  rw [Nat.add_assoc] at hsecond
  exact hfirst.trans hsecond

/-- An instruction is executed that leaves the store alone. -/
theorem of_executes {i : Instruction} (hi : a.instruction? = some i) (hcontrol : i.isControl = false)
    (h : ∀ s, a.Executes s i b s) : a.Reaches program b := by
  refine ⟨1, 0, fun limits store steps callers hsteps _ => .single trivial ?_⟩
  exact .executed (r := ⟨store, steps, a, callers⟩) hsteps hi hcontrol (h store)

/-- Straight-line code is run. -/
theorem follows {code : List Instruction} (hcode : a.method.HasCode a.pc code)
    (h : ∀ s, a.Follows s code b) : a.Reaches program b :=
  ⟨code.length, 0, fun _ store _ _ hsteps _ =>
    Run.LeadsBy.follows (h store) hcode hsteps fun _ _ _ _ _ => trivial⟩

/-- A caller goes on with the value of the method that it calls. -/
theorem call {ref : MethodRef} {m : Method} {arguments rest : List Value} {value : Option Value}
    (hi : a.instruction? = some (.call ref)) (hm : program.findMethod? ref.name = some m)
    (hhandlers : m.body.handlers = []) (hlength : arguments.length = m.parameters.length)
    (hstack : a.stack = arguments.reverse ++ rest) (hanswers : m.Answers program arguments value) :
    a.Reaches program { a with stack := value.toList ++ rest, pc := a.pc + 1 } := by
  obtain ⟨last, ⟨n, d, hlast⟩, hreturning⟩ := hanswers
  refine ⟨1 + n + 1, d + 1, fun limits store steps callers hsteps hdepth => ?_⟩
  have hcount : arguments.reverse.length = m.parameters.length := by
    rw [List.length_reverse, hlength]
  have htake : a.stack.take m.parameters.length = arguments.reverse := by
    rw [hstack, ← hcount, List.take_left']
    rfl
  have hdrop : a.stack.drop m.parameters.length = rest := by
    rw [hstack, ← hcount, List.drop_left']
    rfl
  have henter : Activation.enter m (a.stack.take m.parameters.length).reverse store.depth
      limits.depth = .ok (m.start arguments) := by
    rw [htake, List.reverse_reverse]
    exact Activation.enter_eq_ok.2 ⟨hlength, by omega, [], by rw [hhandlers]; rfl, rfl⟩
  have hentered : Run.Leads program limits ⟨store, steps, a, callers⟩
      ⟨store.opened, steps + 1, m.start arguments, { a with stack := rest } :: callers⟩ := by
    refine .single trivial ?_
    have hstep : Run.StepsTo program limits ⟨store, steps, a, callers⟩ _ :=
      .callEntered (by show steps < limits.steps; omega) hi hm
      (by show m.parameters.length ≤ a.stack.length; rw [hstack, List.length_append]; omega) henter
    rw [hdrop] at hstep
    exact hstep
  have hran := hlast limits store.opened (steps + 1) ({ a with stack := rest } :: callers)
    (by omega) (by rw [Store.opened_depth]; omega)
  have hreturned : Run.Leads program limits
      ⟨store.opened, steps + 1 + n, last, { a with stack := rest } :: callers⟩
      ⟨store, steps + (1 + n + 1), { a with stack := value.toList ++ rest, pc := a.pc + 1 }, callers⟩ := by
    refine .single trivial ?_
    have hstep : Run.StepsTo program limits
        ⟨store.opened, steps + 1 + n, last, { a with stack := rest } :: callers⟩ _ :=
      .returned (by show steps + 1 + n < limits.steps; omega) hreturning.instruction
        hreturning.returns hreturning.pending
    have hresume : Run.resume ({ a with stack := rest } :: callers) (.ok value)
        (last.close store.opened) (steps + 1 + n + 1) =
          .more ⟨store, steps + (1 + n + 1),
            { a with stack := value.toList ++ rest, pc := a.pc + 1 }, callers⟩ := by
      rw [hreturning.close_opened, show steps + 1 + n + 1 = steps + (1 + n + 1) by omega]
      cases value <;> rfl
    exact hresume ▸ hstep
  exact (hentered.trans hran).trans hreturned

end Activation.Reaches

/-- A session gets the value of a method, if the limits allow the call. -/
theorem Method.Answers.invoke {m : Method} {arguments : List Value} {value : Option Value}
    (h : m.Answers program arguments value) (hm : m ∈ program.methods) (hhandlers : m.body.handlers = [])
    (hlength : arguments.length = m.parameters.length) :
    ∃ n d, ∀ s : Session, s.program = program → s.steps + n ≤ s.limits.steps →
      s.store.depth + d ≤ s.limits.depth →
      s.invoke m arguments = some (.ok value, { s with steps := s.steps + n }) := by
  obtain ⟨last, ⟨n, d, hlast⟩, hreturning⟩ := h
  refine ⟨n + 1, d + 1, fun s hs hsteps hdepth => ?_⟩
  subst hs
  have henter : Activation.enter m arguments s.store.depth s.limits.depth =
      .ok (m.start arguments) :=
    Activation.enter_eq_ok.2 ⟨hlength, by omega, [], by rw [hhandlers]; rfl, rfl⟩
  have hleads := hlast s.limits s.store.opened s.steps [] (by omega)
    (by rw [Store.opened_depth]; omega)
  have hreturned : Run.StepsTo s.program s.limits ⟨s.store.opened, s.steps + n, last, []⟩ _ :=
    .returned (by show s.steps + n < s.limits.steps; omega) hreturning.instruction
      hreturning.returns hreturning.pending
  have hends : Progress.Ends s.program s.limits
      (.more ⟨s.store.opened, s.steps, m.start arguments, []⟩) (.ok value, s.store, s.steps + n + 1) := by
    refine hleads.ends_iff.2 (.more ?_)
    rw [hreturned.step_eq]
    show Progress.Ends s.program s.limits
      (.done (.ok value) (last.close s.store.opened) (s.steps + n + 1)) _
    rw [hreturning.close_opened]
    exact .done
  exact Session.invoke_of_ends hm henter hends

end ManagedC
