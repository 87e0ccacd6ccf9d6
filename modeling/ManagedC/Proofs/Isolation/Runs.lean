import ManagedC.Proofs.Isolation.Instructions
import ManagedC.Proofs.Unwinding.Circles

/-!
# Runs that do not know of each other

The machine does in a store that is in use what it does in a new one, step by step, as long as no step
limit is reached (`Run.StepsTo.after`, `Progress.Ends.after`). Main statement: whatever has been run
before, the program started once more ends as it does on a new machine, up to the numbers of objects and
blocks, and adds to the events and counts what it adds there (`Session.runEntry_isolated`). In particular
no pin, no call and no object of an earlier run that failed is met again.
-/

namespace ManagedC

/-- The end of a call with new numbers. -/
def CallResult.shift (d : Shift) : CallResult → CallResult
  | .ok value => .ok (value.map (·.shift d))
  | .error c => .error (c.shift d)

/-- The machine with a store behind another one, and with more instructions executed. -/
def Run.after (base : Store) (n : Nat) (r : Run) : Run :=
  ⟨base.after r.store, n + r.steps, r.current.shift base.heap.room,
    r.callers.map (·.shift base.heap.room)⟩

/-- The machine after a step with a store behind another one. -/
def Progress.after (base : Store) (n : Nat) : Progress → Progress
  | .more r => .more (r.after base n)
  | .done result store steps => .done (result.shift base.heap.room) (base.after store) (n + steps)

variable {base : Store} {n : Nat} {program : Module} {limits limits' : Limits} {r : Run}
  {p : Progress}

theorem Activation.covering_shift {d : Shift} (a : Activation) :
    (a.shift d).covering = a.covering := rfl

namespace Access.Shifts

variable {α β : Type} {f : α → β} {x : Access α} {y : Access β} {s t : Store}

/-- What is yielded in a store is yielded behind another one. -/
theorem yields {a : α} (h : Shifts base f x y) (hx : Yields x s a t) :
    Yields y (base.after s) (f a) (base.after t) := by
  obtain ⟨hstore, hresult⟩ := h s
  have hx : x s = (.ok a, t) := hx
  rw [hx] at hstore hresult
  exact Prod.ext hresult hstore

/-- What fails in a store fails behind another one. -/
theorem fails {fault : Fault} (h : Shifts base f x y) (hx : Fails x s fault t) :
    Fails y (base.after s) (fault.shift base.heap.room) (base.after t) := by
  obtain ⟨hstore, hresult⟩ := h s
  have hx : x s = (.error fault, t) := hx
  rw [hx] at hstore hresult
  exact Prod.ext hresult hstore

end Access.Shifts

namespace Run

/-- A crash goes through the calls in the same way. -/
theorem raise_after (store : Store) (steps : Nat) (c : Crash) (a : Activation)
    (callers : List Activation) :
    raise (base.after store) (n + steps) (c.shift base.heap.room) (a.shift base.heap.room)
      (callers.map (·.shift base.heap.room)) = (raise store steps c a callers).after base n := by
  induction callers generalizing store a with
  | nil =>
    cases hcovering : a.covering with
    | cons region rest =>
      rw [raise_of_covering_cons hcovering,
        raise_of_covering_cons (a.covering_shift.trans hcovering)]
      rfl
    | nil =>
      rw [raise_of_covering_nil hcovering, raise_of_covering_nil (a.covering_shift.trans hcovering),
        a.close_shift]
      rfl
  | cons caller callers ih =>
    cases hcovering : a.covering with
    | cons region rest =>
      rw [raise_of_covering_cons hcovering,
        raise_of_covering_cons (a.covering_shift.trans hcovering)]
      rfl
    | nil =>
      rw [raise_of_covering_nil hcovering, raise_of_covering_nil (a.covering_shift.trans hcovering),
        a.close_shift]
      exact ih _ caller

theorem resume_after (callers : List Activation) (result : CallResult) (store : Store)
    (steps : Nat) :
    resume (callers.map (·.shift base.heap.room)) (result.shift base.heap.room) (base.after store)
      (n + steps) = (resume callers result store steps).after base n := by
  cases callers with
  | nil => rfl
  | cons caller callers =>
    match result with
    | .ok none => rfl
    | .ok (some v) => rfl
    | .error c => exact raise_after store steps c caller callers

/-- A step does in a store that is in use what it does in a new one. -/
theorem StepsTo.after (hdepth : limits'.depth = limits.depth) (hr : r.steps < limits.steps)
    (hr' : n + r.steps < limits'.steps) (h : r.StepsTo program limits p) :
    (r.after base n).StepsTo program limits' (p.after base n) := by
  obtain ⟨store, steps, current, callers⟩ := r
  have hstack : (current.shift base.heap.room).stack =
      current.stack.map (·.shift base.heap.room) := rfl
  have hlength : (current.shift base.heap.room).stack.length = current.stack.length :=
    List.length_map _
  have hpending : ∀ {p outer}, current.pending = p :: outer →
      (current.shift base.heap.room).pending =
        p.shift base.heap.room :: outer.map (·.shift base.heap.room) := congrArg (List.map _)
  have hreturns : ∀ {value}, current.Returns value →
      (current.shift base.heap.room).Returns (value.map (·.shift base.heap.room)) := by
    rintro value (⟨hvoid, rfl⟩ | ⟨hvoid, v, rest, hv, rfl⟩)
    · exact .inl ⟨hvoid, rfl⟩
    · exact .inr ⟨hvoid, _, _, by rw [hstack, hv, List.map_cons], rfl⟩
  have henter : ∀ m : Method, Shifts base.heap.room (·.shift base.heap.room)
      (Activation.enter m (current.stack.take m.parameters.length).reverse store.depth
        limits.depth)
      (Activation.enter m
        ((current.shift base.heap.room).stack.take m.parameters.length).reverse
        store.depth limits'.depth) := by
    intro m
    rw [hstack, ← List.map_take, ← List.map_reverse, hdepth]
    exact Activation.shifts_enter m _ _ _
  cases h with
  | limit hlimit => exact absurd hr (Nat.not_lt_of_le hlimit)
  | fellOff _ hi =>
    rw [← raise_after]
    exact .fellOff hr' hi
  | @executed i b t _ hi hcontrol hexec =>
    have hyields := Activation.yields_of_executes hexec
    have hshifts := (@Activation.shifts_execute base current i).yields hyields
    exact .executed hr' hi hcontrol (Activation.executes_of_yields hcontrol hshifts)
  | @faulted i f t _ hi hcontrol hfails =>
    rw [← raise_after]
    exact .faulted hr' hi hcontrol ((@Activation.shifts_execute base current i).fails hfails)
  | callMissing _ hi hm =>
    rw [← raise_after]
    exact .callMissing hr' hi hm
  | callShort _ hi hm hshort =>
    rw [← raise_after]
    exact .callShort hr' hi hm (hlength.trans_lt hshort)
  | @callRefused ref m f _ hi hm hlen he =>
    have he' := henter m
    rw [he] at he'
    rw [← raise_after]
    exact .callRefused hr' hi hm (hlen.trans_eq hlength.symm) he'
  | @callEntered ref m callee _ hi hm hlen he =>
    have he' := henter m
    rw [he] at he'
    change StepsTo program limits' _ (.more ⟨base.after store.opened, n + (steps + 1),
      callee.shift base.heap.room,
      { current.shift base.heap.room with
        stack := (current.stack.drop m.parameters.length).map (·.shift base.heap.room) } ::
          callers.map (·.shift base.heap.room)⟩)
    rw [List.map_drop]
    exact .callEntered hr' hi hm (hlen.trans_eq hlength.symm) he'
  | retEmpty _ hi hvoid hs =>
    rw [← raise_after]
    exact .retEmpty hr' hi hvoid (congrArg (List.map _) hs)
  | returned _ hi hv hp =>
    rw [← resume_after, ← Activation.close_shift]
    exact .returned hr' hi (hreturns hv) (congrArg (List.map _) hp)
  | @handlerReturned value p outer _ hi hv hp =>
    rw [← resume_after, ← Activation.close_shift]
    exact .handlerReturned (p := p.shift base.heap.room) hr' hi (hreturns hv) (hpending hp)
  | leaveUnbound _ hi hl =>
    rw [← raise_after]
    exact .leaveUnbound hr' hi hl
  | jumped _ hi hl hnone => exact .jumped hr' hi hl hnone
  | left _ hi hl hleft => exact .left hr' hi hl hleft
  | stray _ hi hp =>
    rw [← resume_after, ← Activation.close_shift]
    exact .stray hr' hi (congrArg (List.map _) hp)
  | nextHandler _ hi hp hrest =>
    exact .nextHandler (r := Run.after base n ⟨store, steps, current, callers⟩) hr' hi
      (hpending hp) hrest
  | jumpDone _ hi hp hrest hc =>
    exact .jumpDone hr' hi (hpending hp) hrest (congrArg (Completion.shift base.heap.room) hc)
  | crashDone _ hi hp hrest hc =>
    rw [← resume_after, ← Activation.close_shift]
    exact .crashDone hr' hi (hpending hp) hrest (congrArg (Completion.shift base.heap.room) hc)

end Run

/-- A run that does not come to the step limit ends in a store that is in use as in a new one, if it
does not come to the step limit there either. -/
theorem Progress.Ends.after {o : Ending} (hdepth : limits'.depth = limits.depth)
    (h : p.Ends program limits o) (hp : p.Always program limits (·.steps < limits.steps))
    (hp' : (p.after base n).Always program limits' (·.steps < limits'.steps)) :
    (p.after base n).Ends program limits'
      (o.1.shift base.heap.room, base.after o.2.1, n + o.2.2) := by
  induction h with
  | done => exact .done
  | @more r o _ ih =>
    have hmade : r.StepsTo program limits (r.step program limits) := Run.stepsTo_step r
    have hstep : (r.after base n).StepsTo program limits' _ := hmade.after hdepth hp.head hp'.head
    have htail := hp'.tail
    rw [hstep.step_eq] at htail
    refine .more ?_
    rw [hstep.step_eq]
    exact ih hp.tail htail

/-! ## Requests -/

/-- Nothing is added by a new store, if no call is in progress. -/
theorem Store.after_empty {base : Store} (hrest : base.depth = 0) : base.after {} = base := by
  obtain ⟨heap, stats, events, depth⟩ := base
  obtain rfl : depth = 0 := hrest
  simp [after, Heap.after, Stats.plus]

namespace Session

/-- The program, started with the arguments, does not come to the step limit. -/
def StaysWithin (s : Session) (args : List String) : Prop :=
  ∀ r r', s.entryRun? args = some r → r.Leads s.program s.limits r' → r'.steps < s.limits.steps

/-- The session, with what was stored and executed in another one added. -/
def after (base : Session) (u : Session) : Session :=
  { base with store := base.store.after u.store, steps := base.steps + u.steps }

/-- A new machine with a program. -/
def fresh (program : Module) (limits : Limits) : Session := { program := program, limits := limits }

theorem after_fresh {base : Session} (limits : Limits) (hrest : base.store.depth = 0) :
    base.after (fresh base.program limits) = base := by
  simp [after, fresh, Store.after_empty hrest]

/-- The exit code that the result of a method stands for does not depend on the numbers. -/
theorem exitCodeOf_shift (method : String) (d : Shift) (result : CallResult) :
    exitCodeOf method (result.shift d) = (exitCodeOf method result).mapError (·.shift d) := by
  rcases result with c | _ | v
  · rfl
  · rfl
  · cases v <;> rfl

/-- The strings from the host are put behind what is stored already. -/
theorem hostArguments_after (args : List String) (base store : Store) :
    hostArguments args (base.after store) =
      ((hostArguments args store).1.shift base.heap.room,
        base.after (hostArguments args store).2) := by
  rw [hostArguments_eq, hostArguments_eq]
  simp [Store.after, Heap.after, Heap.room, HeapObject.shift, Value.shift, Function.comp_def,
    Nat.add_assoc]

variable {s u : Session} {store : Store} {m : Method} {arguments : List Value} {a : Activation}

/-- A call from outside whose run does not come to the step limit ends as the run does. -/
theorem exists_iterate (hm : m ∈ s.program.methods)
    (henter : Activation.enter m arguments store.depth s.limits.depth = .ok a)
    (hwithin : (Progress.more ⟨store.opened, s.steps, a, []⟩).Always s.program s.limits
      (·.steps < s.limits.steps)) :
    ∃ o, Run.iterate s.program s.limits (Run.fuel s.program s.limits)
        ⟨store.opened, s.steps, a, []⟩ = some o ∧
      Progress.Ends s.program s.limits (.more ⟨store.opened, s.steps, a, []⟩) o := by
  have htrapped : ¬Run.IsTrapped s.program s.limits ⟨store.opened, s.steps, a, []⟩ := by
    rintro ⟨r', hleads, hlimit, -⟩
    exact Nat.not_lt_of_le hlimit (hwithin _ _ rfl hleads)
  have hsome := (Run.iterate_fuel_isSome_or hm henter).resolve_right htrapped
  obtain ⟨o, ho⟩ := Option.isSome_iff_exists.1 hsome
  exact ⟨o, ho, .of_iterate ho⟩

/-- A call from outside does in a store that is in use what it does in a new one. -/
theorem invoke_after (base : Session) (hprogram : u.program = base.program)
    (hdepth : u.limits.depth = base.limits.depth) (hm : m ∈ base.program.methods)
    (hu : ∀ r r', u.begin? u.store m arguments = some r →
      r.Leads u.program u.limits r' → r'.steps < u.limits.steps)
    (hbase : ∀ r r', (base.after u).begin? (base.store.after u.store) m
        (arguments.map (·.shift base.store.heap.room)) = some r →
      r.Leads base.program base.limits r' → r'.steps < base.limits.steps) :
    ∃ result t, u.invoke m arguments = some (result, t) ∧
      (base.after u).invoke m (arguments.map (·.shift base.store.heap.room)) =
        some (result.shift base.store.heap.room, base.after t) := by
  obtain ⟨program, limits, store, steps⟩ := u
  obtain rfl : program = base.program := hprogram
  obtain hdepth : base.limits.depth = limits.depth := hdepth.symm
  have henter := Activation.shifts_enter (d := base.store.heap.room) m arguments store.depth limits.depth
  unfold begin? after at hbase
  unfold begin? at hu
  unfold invoke after
  dsimp only at hu hbase ⊢
  have hcalls : (base.store.after store).depth = store.depth := rfl
  rw [hdepth, hcalls] at hbase ⊢
  cases hbegin : Activation.enter m arguments store.depth limits.depth with
  | error f =>
    rw [hbegin] at henter
    have henter : _ = _ := henter
    rw [henter]
    exact ⟨_, _, rfl, rfl⟩
  | ok a =>
    rw [hbegin] at henter hu
    have henter : _ = _ := henter
    rw [henter] at hbase ⊢
    have hwithin : (Progress.more ⟨store.opened, steps, a, []⟩).Always base.program limits
        (·.steps < limits.steps) := by
      rintro r r' ⟨⟩ hleads
      exact hu _ _ rfl hleads
    have hwithin' : ((Progress.more ⟨store.opened, steps, a, []⟩).after base.store base.steps).Always
        base.program base.limits (·.steps < base.limits.steps) := by
      rintro r r' ⟨⟩ hleads
      exact hbase _ _ rfl hleads
    obtain ⟨⟨result, t, k⟩, ho, hends⟩ :=
      exists_iterate (s := ⟨base.program, limits, store, steps⟩) hm hbegin hwithin
    obtain ⟨o', ho', hends'⟩ :=
      @exists_iterate (base.after ⟨base.program, limits, store, steps⟩) (base.store.after store) m _ _
        hm (hdepth ▸ henter) hwithin'
    obtain rfl := hends'.unique (hends.after hdepth hwithin hwithin')
    dsimp only at ho ⊢
    rw [ho]
    exact ⟨result, _, rfl, congrArg (Option.map _) ho'⟩

/-- A method of the program stands for the same exit code in a store that is in use. -/
theorem exitCode_after (s : Session) (limits : Limits) (hdepth : limits.depth = s.limits.depth)
    (hm : m ∈ s.program.methods)
    (hfresh : ∀ r r', (fresh s.program limits).begin? store m arguments = some r →
      r.Leads s.program limits r' → r'.steps < limits.steps)
    (hused : ∀ r r', s.begin? (s.store.after store) m
        (arguments.map (·.shift s.store.heap.room)) = some r →
      r.Leads s.program s.limits r' → r'.steps < s.limits.steps) :
    ∃ outcome u, (({ fresh s.program limits with store := store } : Session).invoke m arguments).map
        (fun (result, u) => (exitCodeOf m.name result, u)) = some (outcome, u) ∧
      (({ s with store := s.store.after store } : Session).invoke m
        (arguments.map (·.shift s.store.heap.room))).map
          (fun (result, u) => (exitCodeOf m.name result, u)) =
        some (outcome.mapError (·.shift s.store.heap.room), s.after u) := by
  obtain ⟨result, t, ht, ht'⟩ :=
    @invoke_after ⟨s.program, limits, store, 0⟩ m arguments s rfl hdepth hm hfresh hused
  refine ⟨exitCodeOf m.name result, t, congrArg (Option.map _) ht, ?_⟩
  rw [← exitCodeOf_shift]
  exact congrArg (Option.map _) ht'

/-- Whatever has been run before in a session, with an exit code or a failure in the end, leaves it with
no call in progress (`Session.depth_runEntry`). Then the program started once more ends as it does on a
new machine: with the same exit code, or with the same failure up to the numbers of objects and blocks.
To the events and to the counts it adds what it adds there (`Store.after`). -/
theorem runEntry_isolated (s : Session) (limits : Limits) (args : List String)
    (hrest : s.store.depth = 0) (hdepth : limits.depth = s.limits.depth)
    (hfresh : (fresh s.program limits).StaysWithin args) (hused : s.StaysWithin args) :
    ∃ outcome u, (fresh s.program limits).runEntry args = some (outcome, u) ∧
      s.runEntry args = some (outcome.mapError (·.shift s.store.heap.room), s.after u) := by
  unfold StaysWithin entryRun? at hfresh hused
  unfold runEntry
  have hprogram : (fresh s.program limits).program = s.program := rfl
  have hempty : (fresh s.program limits).store = {} := rfl
  rw [hprogram, hempty] at hfresh ⊢
  have hnone : ∀ failure : Failure, failure.shift s.store.heap.room = failure →
      ∃ outcome u, (some (.error failure, fresh s.program limits) :
          Option (Except Failure Int32 × Session)) = some (outcome, u) ∧
        some (.error failure, s) =
          some (outcome.mapError (·.shift s.store.heap.room), s.after u) := by
    intro failure hshift
    refine ⟨.error failure, _, rfl, ?_⟩
    rw [after_fresh limits hrest, Except.mapError, hshift]
  cases hentry : s.program.entryMethod? with
  | none => exact hnone _ rfl
  | some entry =>
    have hm := Module.mem_of_entryMethod? hentry
    rw [hentry] at hfresh hused
    simp only [Option.bind_eq_bind, Option.bind_some] at hfresh hused
    dsimp only
    match hparameters : entry.parameters with
    | [] =>
      rw [hparameters] at hfresh hused
      have hcode := @exitCode_after {} entry [] s limits hdepth hm hfresh
      rw [Store.after_empty hrest] at hcode
      exact hcode hused
    | [only] =>
      rw [hparameters] at hfresh hused
      dsimp only at hfresh hused ⊢
      split
      · rename_i htype
        have hhost := hostArguments_after args s.store {}
        rw [Store.after_empty hrest] at hhost
        rw [if_pos htype] at hfresh hused
        rw [hhost] at hused ⊢
        exact exitCode_after s limits hdepth hm hfresh hused
      · exact hnone _ rfl
    | _ :: _ :: _ => exact hnone _ rfl

/-- The answer to a call from outside is what its run ends with. -/
theorem ends_of_invoke {α : Type} {f : CallResult → α} {b : α} {r : Run}
    (hr : s.begin? store m arguments = some r)
    (h : (({ s with store := store } : Session).invoke m arguments).map
      (fun (result, u) => (f result, u)) = some (b, u)) :
    ∃ result, b = f result ∧
      Progress.Ends s.program s.limits (.more r) (result, u.store, u.steps) := by
  obtain ⟨⟨result, t⟩, hinvoke, heq⟩ := Option.map_eq_some_iff.1 h
  cases heq
  unfold begin? at hr
  unfold invoke at hinvoke
  dsimp only at hinvoke
  cases henter : Activation.enter m arguments store.depth s.limits.depth with
  | error fault =>
    rw [henter] at hr
    cases hr
  | ok a =>
    rw [henter] at hr hinvoke
    cases hr
    obtain ⟨o, ho, ht⟩ := Option.map_eq_some_iff.1 hinvoke
    cases ht
    exact ⟨o.1, rfl, .of_iterate ho⟩

/-- The answer to a start of the program is the exit code of what its run ends with. -/
theorem ends_of_runEntry {args : List String} {outcome : Except Failure Int32} {r : Run}
    (hr : s.entryRun? args = some r) (h : s.runEntry args = some (outcome, u)) :
    ∃ entry result, outcome = exitCodeOf entry result ∧
      Progress.Ends s.program s.limits (.more r) (result, u.store, u.steps) := by
  rcases runEntry_cases s args with ⟨hrun, -⟩ | ⟨entry, -, store, arguments, -, hrun, hanswer⟩
  · rw [hrun] at hr
    cases hr
  · exact ⟨entry.name, ends_of_invoke (hrun.symm.trans hr) (hanswer.symm.trans h)⟩

/-- A run that could have executed more instructions when it ended did not come to the limit. -/
theorem staysWithin_of_runEntry {args : List String} {outcome : Except Failure Int32}
    (h : s.runEntry args = some (outcome, u)) (hsteps : u.steps < s.limits.steps) :
    s.StaysWithin args := by
  intro r r' hr hleads
  obtain ⟨_, result, -, hends⟩ := ends_of_runEntry hr h
  have hcount := (Run.steps_of_ends (hleads.ends_iff.1 hends)).1
  exact Nat.lt_of_le_of_lt hcount hsteps

end Session

/-- A program that takes an array for a number. -/
def Module.negating : Module where
  name := "negating"
  methods := #[{ Method.declare "main" .void .publicStatic with
    body := ⟨#[.constInt32 1, .newArray .int32, .neg, .ret], .empty, []⟩ }]
  entryPoint := some 0

/-- It fails in the same way when it is started again. The array is the first object on a new machine,
and the second one then. -/
theorem Session.runEntry_isolated_negating :
    let first := fresh .negating { steps := 20, depth := 1 }
    ∃ s u, first.runEntry [] =
        some (.error (.crash ⟨"main", 2, .typeMismatch (.notInteger (.object 0))⟩), s) ∧
      first.StaysWithin [] ∧ s.StaysWithin [] ∧
      s.runEntry [] =
        some (.error (.crash ⟨"main", 2, .typeMismatch (.notInteger (.object 1))⟩), s.after u) := by
  intro first
  let s : Session :=
    { first with store := { heap := { objects := #[.array .int32 #[.int 0] 0] } }, steps := 3 }
  have hfirst : first.runEntry [] =
      some (.error (.crash ⟨"main", 2, .typeMismatch (.notInteger (.object 0))⟩), s) := rfl
  have hsecond : ∃ outcome t, s.runEntry [] = some (outcome, t) ∧ t.steps = 6 := ⟨_, _, rfl, rfl⟩
  obtain ⟨outcome, t, ht, hsteps⟩ := hsecond
  have hstays : first.StaysWithin [] := staysWithin_of_runEntry hfirst (by decide)
  have hstays' : s.StaysWithin [] := staysWithin_of_runEntry ht (hsteps ▸ by decide)
  obtain ⟨outcome, u, hu, hs⟩ := runEntry_isolated s first.limits [] (depth_runEntry hfirst) rfl hstays
    hstays'
  have hsame : some (_, s) = some (outcome, u) := hfirst.symm.trans hu
  cases hsame
  exact ⟨s, s, hfirst, hstays, hstays', hs⟩

end ManagedC
