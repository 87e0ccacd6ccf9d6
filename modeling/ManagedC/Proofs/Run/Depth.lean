import ManagedC.Proofs.Memory.Conserved

/-!
# The counter of calls

The machine counts the calls in progress: up by one when a call begins, down by one when it ends, with a
result or with a crash that goes on in the call that waits. A run counts right if the counter exceeds what
it was when the run began by the number of its calls (`Run.Counts`). Instructions leave the counter alone
(`Run.depth_execute`). Main statements: every step counts right (`Run.StepsTo.counts`), and when the
outermost call has ended the counter is back to what it was (`Progress.Counts.ends`), as it is after each
call from outside (`Session.depth_call`, `Session.depth_runEntry`).
-/

namespace ManagedC

variable {program : Module} {limits : Limits} {d : Nat}

/-- The counter says how many calls the run has, beyond those that were in progress before it. -/
def Run.Counts (d : Nat) (r : Run) : Prop := r.store.depth = d + r.callers.length + 1

/-- The run counts right, or it has ended and the counter is back to what it was. -/
def Progress.Counts (d : Nat) : Progress → Prop
  | .more r => r.Counts d
  | .done _ store _ => store.depth = d

namespace Run

variable {r r' : Run} {p : Progress}

/-- What the machine does to the heap in one go leaves the counter alone. -/
theorem conserved_depth (d : Nat) : Store.Conserved (·.depth = d) where
  objects _ _ h := h
  bytes _ _ _ _ h := h
  made _ _ h := h
  givenBack _ _ _ h := h
  recorded _ _ h := h

/-- An instruction leaves the counter alone, with an answer or a fault. -/
theorem depth_execute {i : Instruction} (hlimit : r.steps < limits.steps)
    (hi : r.current.instruction? = some i) :
    (r.current.execute i r.store).2.depth = r.store.depth := by
  have hI := conserved_depth r.store.depth
  cases hvain : r.freesInVain limits with
  | false => exact conserved_of_not_freesInVain hI rfl hlimit hi hvain
  | true => exact conserved_of_freesInVain (I := (·.depth = r.store.depth)) hI (fun _ h => h) rfl hi hvain

theorem depth_close (a : Activation) (s : Store) : (a.close s).depth = s.depth - 1 :=
  Activation.conserved_releasePins (conserved_depth (s.depth - 1)) a rfl

/-- A crash is counted right: each call that it ends is counted no more. -/
theorem counts_raise {s : Store} {steps : Nat} {c : Crash} {a : Activation}
    {callers : List Activation} (hs : s.depth = d + callers.length + 1) :
    (raise s steps c a callers).Counts d := by
  cases hcovering : a.covering with
  | cons region rest =>
    rw [raise_of_covering_cons hcovering]
    exact hs
  | nil =>
    rw [raise_of_covering_nil hcovering]
    have hclose : (a.close s).depth = d + callers.length := by
      rw [depth_close, hs, Nat.add_sub_cancel]
    cases callers with
    | nil => exact hclose
    | cons caller callers => exact counts_raise hclose
termination_by callers.length

/-- The end of a call is counted right. -/
theorem counts_resume {s : Store} {steps : Nat} {result : CallResult} {callers : List Activation}
    (hs : s.depth = d + callers.length) : (resume callers result s steps).Counts d := by
  match callers, result with
  | [], _ => exact hs
  | _ :: _, .ok (some _) | _ :: _, .ok none => exact hs
  | _ :: _, .error _ => exact counts_raise hs

/-- Every step counts right. -/
theorem StepsTo.counts (h : r.StepsTo program limits p) (hr : r.Counts d) : p.Counts d := by
  have hclose : (r.current.close r.store).depth = d + r.callers.length := by
    rw [depth_close, hr, Nat.add_sub_cancel]
  cases h with
  | limit | fellOff | callMissing | callShort | callRefused | retEmpty | leaveUnbound =>
    exact counts_raise hr
  | returned | handlerReturned | stray | crashDone => exact counts_resume hclose
  | jumped | left | nextHandler | jumpDone => exact hr
  | callEntered => exact congrArg (· + 1) hr
  | executed hlimit hi _ hexecutes =>
    have ht := depth_execute hlimit hi
    rw [Activation.yields_of_executes hexecutes] at ht
    exact ht.trans hr
  | faulted hlimit hi _ hfails =>
    have ht := depth_execute hlimit hi
    rw [hfails] at ht
    exact counts_raise (ht.trans hr)

/-- A run that a call from outside begins counts right. -/
theorem counts_enter (a : Activation) (s : Store) (steps : Nat) :
    Counts s.depth ⟨s.opened, steps, a, []⟩ := rfl

/-- Every run that another one leads to counts right if that one does. -/
theorem LeadsBy.counts {P : Run → Prop} (h : r.LeadsBy program limits P r') (hr : r.Counts d) :
    r'.Counts d :=
  h.keeps (fun _ _ _ hr hstep => hstep.counts hr) hr

end Run

/-- When the outermost call has ended, the counter is back to what it was. -/
theorem Progress.Counts.ends {p : Progress} {o : Ending} (hp : p.Counts d)
    (h : p.Ends program limits o) : o.2.1.depth = d := by
  induction h with
  | done => exact hp
  | @more r o _ ih => exact ih ((Run.stepsTo_step r).counts hp)

namespace Session

variable {s s' : Session}

/-- After a call from outside the counter is what it was before, however the call has ended. -/
theorem depth_invoke {m : Method} {arguments : List Value} {result : CallResult}
    (h : s.invoke m arguments = some (result, s')) :
    s'.store.depth = s.store.depth := by
  unfold invoke at h
  split at h
  · cases h
    rfl
  · rename_i a _
    obtain ⟨o, ho, heq⟩ := Option.map_eq_some_iff.1 h
    cases heq
    exact Progress.Counts.ends (p := .more _) (Run.counts_enter a s.store s.steps) (.of_iterate ho)

theorem depth_call {name : String} {arguments : List Value} {result : CallResult}
    (h : s.call name arguments = some (result, s')) : s'.store.depth = s.store.depth := by
  unfold Session.call at h
  split at h
  · cases h
    rfl
  · exact depth_invoke h

theorem depth_runEntry {args : List String} {outcome : Except Failure Int32}
    (h : s.runEntry args = some (outcome, s')) : s'.store.depth = s.store.depth := by
  unfold runEntry at h
  split at h
  · cases h
    rfl
  split at h
  · obtain ⟨⟨result, t⟩, ht, heq⟩ := Option.map_eq_some_iff.1 h
    cases heq
    exact depth_invoke ht
  · split at h
    · obtain ⟨⟨result, t⟩, ht, heq⟩ := Option.map_eq_some_iff.1 h
      cases heq
      exact depth_invoke (s := { s with store := (hostArguments args s.store).2 }) ht
    · cases h
      rfl
  · cases h
    rfl

end Session

end ManagedC
