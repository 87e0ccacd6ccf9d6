import ManagedC.Proofs.Run.Ending
import ManagedC.Proofs.Run.Instruction

/-!
# What a step does

`Run.StepsTo` lists all that a step of the machine can do, one constructor for each way. What holds
along every run is proved by cases on it. Main statements: a step does one of these things
(`Run.stepsTo_step`), and which one is settled by the machine (`Run.StepsTo.step_eq`).
-/

namespace ManagedC

theorem Module.mem_of_findMethod? {program : Module} {name : String} {m : Method}
    (h : program.findMethod? name = some m) : m ∈ program.methods := by
  simpa using List.mem_of_find?_eq_some h

theorem Module.mem_of_entryMethod? {program : Module} {m : Method}
    (h : program.entryMethod? = some m) : m ∈ program.methods := by
  obtain ⟨id, -, hm⟩ := Option.bind_eq_some_iff.1 h
  exact Array.mem_of_getElem? hm

namespace Activation

/-- The call at the start of the handler of a region, where others follow. -/
def enterHandler (a : Activation) (region : Region) (rest : List Region) (c : Completion) :
    Activation :=
  { a with
    stack := []
    pc := region.handlerStart
    pending := ⟨region.handlerStart, rest, c⟩ :: a.pending }

/-- A call of the method leaves a value behind exactly if its result type is not `void`. -/
def Returns (a : Activation) (value : Option Value) : Prop :=
  (a.method.returnType = .void ∧ value = none) ∨
    (a.method.returnType ≠ .void ∧ ∃ v rest, a.stack = v :: rest ∧ value = some v)

/-- The regions that a jump leaves. -/
def leaving (a : Activation) (target : Nat) : List Region :=
  a.regions.filter fun region => region.protects a.pc && !region.protects target

/-- A call begins with its arguments, its variables and the regions of its method. -/
theorem enter_eq_ok {m : Method} {arguments : List Value} {depth maxDepth : Nat}
    {a : Activation} : enter m arguments depth maxDepth = .ok a ↔
      arguments.length = m.parameters.length ∧ depth < maxDepth ∧
        ∃ regions, m.body.handlers.mapM m.body.region? = some regions ∧
          a = ⟨m, regions, arguments.toArray, m.locals.map fun v => .zeroOf v.type, [], 0, []⟩ := by
  unfold enter
  by_cases hlength : arguments.length = m.parameters.length
  · by_cases hdepth : depth < maxDepth
    · rw [if_neg (not_not_intro hlength)]
      dsimp only
      rw [if_neg (Nat.not_le_of_lt hdepth)]
      cases m.body.handlers.mapM m.body.region? with
      | none => simp [throw, throwThe, MonadExceptOf.throw]
      | some regions => simp [pure, Except.pure, hlength, hdepth, eq_comm]
    · rw [if_neg (not_not_intro hlength)]
      dsimp only
      rw [if_pos (Nat.le_of_not_lt hdepth)]
      simp [throw, throwThe, MonadExceptOf.throw, bind, Except.bind, hdepth]
  · rw [if_pos hlength]
    simp [throw, throwThe, MonadExceptOf.throw, bind, Except.bind, hlength]

/-- A call with the right number of arguments that is refused although the regions are bound is one
too many. -/
theorem enter_eq_error {m : Method} {arguments : List Value} {depth maxDepth : Nat} {f : Fault}
    {regions : List Region} (hlength : arguments.length = m.parameters.length)
    (hregions : m.body.handlers.mapM m.body.region? = some regions)
    (h : enter m arguments depth maxDepth = .error f) :
    maxDepth ≤ depth ∧ f = .stackOverflow maxDepth := by
  unfold enter at h
  rw [if_neg (not_not_intro hlength)] at h
  dsimp only at h
  split at h
  · rename_i hdepth
    cases h
    exact ⟨hdepth, rfl⟩
  · rw [hregions] at h
    cases h

end Activation

namespace Run

/-- What a step does. -/
inductive StepsTo (program : Module) (limits : Limits) (r : Run) : Progress → Prop where
  | limit : limits.steps ≤ r.steps →
    StepsTo program limits r (r.fault (.stepLimitExceeded limits.steps))
  | fellOff : r.steps < limits.steps → r.current.instruction? = none →
    StepsTo program limits r (raise r.store (r.steps + 1)
      (r.current.crash (.invalidProgram (.fellOff r.current.method.name))) r.current r.callers)
  /-- An instruction stays inside the call. -/
  | executed {i : Instruction} {b : Activation} {t : Store} : r.steps < limits.steps →
    r.current.instruction? = some i → i.isControl = false → r.current.Executes r.store i b t →
    StepsTo program limits r (.more ⟨t, r.steps + 1, b, r.callers⟩)
  | faulted {i : Instruction} {f : Fault} {t : Store} : r.steps < limits.steps →
    r.current.instruction? = some i → i.isControl = false →
    Fails (r.current.execute i) r.store f t →
    StepsTo program limits r
      (raise t (r.steps + 1) (r.current.crash f) r.current r.callers)
  /-- A method is called that does not exist. -/
  | callMissing {ref : MethodRef} : r.steps < limits.steps →
    r.current.instruction? = some (.call ref) → program.findMethod? ref.name = none →
    StepsTo program limits r (raise r.store (r.steps + 1)
      (r.current.crash (.missingMethod ref.name)) r.current r.callers)
  /-- A method is called with too few values on the stack. -/
  | callShort {ref : MethodRef} {m : Method} : r.steps < limits.steps →
    r.current.instruction? = some (.call ref) → program.findMethod? ref.name = some m →
    r.current.stack.length < m.parameters.length →
    StepsTo program limits r (raise r.store (r.steps + 1)
      (r.current.crash (.invalidProgram (.missingArguments ref.name))) r.current r.callers)
  /-- A method is called and cannot begin. -/
  | callRefused {ref : MethodRef} {m : Method} {f : Fault} : r.steps < limits.steps →
    r.current.instruction? = some (.call ref) → program.findMethod? ref.name = some m →
    m.parameters.length ≤ r.current.stack.length →
    Activation.enter m (r.current.stack.take m.parameters.length).reverse r.store.depth
      limits.depth = .error f →
    StepsTo program limits r
      (raise r.store (r.steps + 1) ⟨m.name, 0, f⟩ r.current r.callers)
  /-- A method is called and begins. -/
  | callEntered {ref : MethodRef} {m : Method} {callee : Activation} : r.steps < limits.steps →
    r.current.instruction? = some (.call ref) → program.findMethod? ref.name = some m →
    m.parameters.length ≤ r.current.stack.length →
    Activation.enter m (r.current.stack.take m.parameters.length).reverse r.store.depth
      limits.depth = .ok callee →
    StepsTo program limits r (.more ⟨r.store.opened, r.steps + 1, callee,
      { r.current with stack := r.current.stack.drop m.parameters.length } :: r.callers⟩)
  /-- There is no value to return. -/
  | retEmpty : r.steps < limits.steps → r.current.instruction? = some .ret →
    r.current.method.returnType ≠ .void → r.current.stack = [] →
    StepsTo program limits r (raise r.store (r.steps + 1)
      (r.current.crash (.invalidProgram (.stackUnderflow r.current.method.name))) r.current
      r.callers)
  | returned {value : Option Value} : r.steps < limits.steps →
    r.current.instruction? = some .ret → r.current.Returns value → r.current.pending = [] →
    StepsTo program limits r
      (resume r.callers (.ok value) (r.current.close r.store) (r.steps + 1))
  /-- A handler returns, which it must not. -/
  | handlerReturned {value : Option Value} {p : Pending} {outer : List Pending} :
    r.steps < limits.steps → r.current.instruction? = some .ret → r.current.Returns value →
    r.current.pending = p :: outer →
    StepsTo program limits r (resume r.callers
      (.error ⟨r.current.method.name, p.handlerStart, .invalidProgram .handlerReturned⟩)
      (r.current.close r.store) (r.steps + 1))
  /-- A jump out of regions has no target. -/
  | leaveUnbound {label : Label} : r.steps < limits.steps →
    r.current.instruction? = some (.leave label) →
    r.current.method.body.labels.offset? label = none →
    StepsTo program limits r (raise r.store (r.steps + 1)
      (r.current.crash (.invalidProgram (.unboundLabel label))) r.current r.callers)
  /-- A jump leaves no region. -/
  | jumped {label : Label} {target : Nat} : r.steps < limits.steps →
    r.current.instruction? = some (.leave label) →
    r.current.method.body.labels.offset? label = some target → r.current.leaving target = [] →
    StepsTo program limits r (.more ⟨r.store, r.steps + 1,
      { r.current with stack := [], pc := target }, r.callers⟩)
  /-- A jump leaves regions, and the first handler begins. -/
  | left {label : Label} {target : Nat} {region : Region} {rest : List Region} :
    r.steps < limits.steps → r.current.instruction? = some (.leave label) →
    r.current.method.body.labels.offset? label = some target →
    r.current.leaving target = region :: rest →
    StepsTo program limits r (.more ⟨r.store, r.steps + 1,
      r.current.enterHandler region rest (.jump target), r.callers⟩)
  /-- A handler ends where none is running. -/
  | stray : r.steps < limits.steps → r.current.instruction? = some .endFinally →
    r.current.pending = [] →
    StepsTo program limits r (resume r.callers
      (.error ⟨r.current.method.name, 0, .invalidProgram .strayEndFinally⟩)
      (r.current.close r.store) (r.steps + 1))
  /-- A handler ends and the next one begins. -/
  | nextHandler {p : Pending} {outer : List Pending} {region : Region} {rest : List Region} :
    r.steps < limits.steps → r.current.instruction? = some .endFinally →
    r.current.pending = p :: outer → p.rest = region :: rest →
    StepsTo program limits r (.more ⟨r.store, r.steps + 1,
      { r.current with pending := outer }.enterHandler region rest p.completion, r.callers⟩)
  /-- The last handler of a jump ends, and the jump goes on. -/
  | jumpDone {p : Pending} {outer : List Pending} {target : Nat} : r.steps < limits.steps →
    r.current.instruction? = some .endFinally → r.current.pending = p :: outer → p.rest = [] →
    p.completion = .jump target →
    StepsTo program limits r (.more ⟨r.store, r.steps + 1,
      { r.current with stack := [], pc := target, pending := outer }, r.callers⟩)
  /-- The last handler of a crash ends, and the call with it. -/
  | crashDone {p : Pending} {outer : List Pending} {c : Crash} : r.steps < limits.steps →
    r.current.instruction? = some .endFinally → r.current.pending = p :: outer → p.rest = [] →
    p.completion = .fail c →
    StepsTo program limits r
      (resume r.callers (.error c) (r.current.close r.store) (r.steps + 1))

variable {program : Module} {limits : Limits}

theorem stepsTo_ret {store : Store} {steps : Nat} {current : Activation}
    {callers : List Activation} (hlimit : steps < limits.steps)
    (hi : current.instruction? = some .ret) :
    StepsTo program limits ⟨store, steps, current, callers⟩
      (ret ⟨store, steps + 1, current, callers⟩) := by
  have hfinishes : ∀ {value : Option Value}, current.Returns value → current.pending = [] →
      StepsTo program limits ⟨store, steps, current, callers⟩
        (finish ⟨store, steps + 1, current, callers⟩ value) := by
    intro value hv hp
    rw [finish_eq_resume]
    exact .returned hlimit hi hv hp
  have habandons : ∀ {value : Option Value} {p : Pending} {outer : List Pending},
      current.Returns value → current.pending = p :: outer →
      StepsTo program limits ⟨store, steps, current, callers⟩
        (abandon ⟨store, steps + 1, current, callers⟩
          ⟨current.method.name, p.handlerStart, .invalidProgram .handlerReturned⟩) := by
    intro value p outer hv hp
    rw [abandon_eq_resume]
    exact .handlerReturned hlimit hi hv hp
  unfold ret
  by_cases hvoid : current.method.returnType = .void
  · simp only [if_pos hvoid]
    cases hp : current.pending with
    | nil => exact hfinishes (.inl ⟨hvoid, rfl⟩) hp
    | cons p outer => exact habandons (.inl ⟨hvoid, rfl⟩) hp
  · simp only [if_neg hvoid, Activation.pop]
    cases hs : current.stack with
    | nil => exact .retEmpty hlimit hi hvoid hs
    | cons v rest =>
      cases hp : current.pending with
      | nil => exact hfinishes (.inr ⟨hvoid, v, rest, hs, rfl⟩) hp
      | cons p outer => exact habandons (.inr ⟨hvoid, v, rest, hs, rfl⟩) hp

theorem stepsTo_endHandler {store : Store} {steps : Nat} {current : Activation}
    {callers : List Activation} (hlimit : steps < limits.steps)
    (hi : current.instruction? = some .endFinally) :
    StepsTo program limits ⟨store, steps, current, callers⟩
      (endHandler ⟨store, steps + 1, current, callers⟩) := by
  unfold endHandler
  cases hp : current.pending with
  | nil =>
    dsimp only
    rw [abandon_eq_resume]
    exact .stray hlimit hi hp
  | cons p outer =>
    cases hr : p.rest with
    | cons region rest =>
      simp only [hr, Activation.runHandlers]
      exact .nextHandler (r := ⟨store, steps, current, callers⟩) hlimit hi hp hr
    | nil =>
      simp only [hr, Activation.runHandlers]
      cases hc : p.completion with
      | jump target =>
        exact .jumpDone (r := ⟨store, steps, current, callers⟩) hlimit hi hp hr hc
      | fail c =>
        simp only [abandon_eq_resume]
        exact .crashDone (r := ⟨store, steps, current, callers⟩) hlimit hi hp hr hc

/-- A step does one of the things that steps do. -/
theorem stepsTo_step (r : Run) : StepsTo program limits r (r.step program limits) := by
  obtain ⟨store, steps, current, callers⟩ := r
  unfold step
  split
  · rename_i hlimit
    exact .limit hlimit
  rename_i hlimit
  have hlimit : steps < limits.steps := Nat.lt_of_not_le hlimit
  dsimp only
  split
  · rename_i hi
    exact .fellOff hlimit hi
  · rename_i ref hi
    unfold call
    split
    · rename_i hm
      exact .callMissing hlimit hi hm
    · rename_i m hm
      split
      · rename_i hp
        exact .callShort hlimit hi hm (by
          unfold Activation.popMany? at hp
          split at hp
          · assumption
          · cases hp)
      · rename_i arguments caller hp
        obtain ⟨hlen, rfl, rfl⟩ := Activation.popMany?_eq_some.1 hp
        split
        · rename_i callee he
          exact .callEntered hlimit hi hm hlen he
        · rename_i f he
          exact .callRefused hlimit hi hm hlen he
  · rename_i hi
    exact stepsTo_ret hlimit hi
  · rename_i label hi
    unfold leave
    split
    · rename_i f hf
      unfold Activation.target at hf
      split at hf
      · cases hf
      · rename_i hl
        cases hf
        exact .leaveUnbound hlimit hi hl
    · rename_i target ht
      have ht := Activation.target_eq_ok.1 ht
      cases hleft : Activation.leaving current target with
      | nil =>
        have hnil : current.regions.filter (fun region =>
            region.protects current.pc && !region.protects target) = [] := hleft
        simp only [hnil, Activation.runHandlers]
        exact .jumped hlimit hi ht hleft
      | cons region rest =>
        have hcons : current.regions.filter (fun region =>
            region.protects current.pc && !region.protects target) = region :: rest := hleft
        simp only [hcons, Activation.runHandlers]
        exact .left hlimit hi ht hleft
  · rename_i hi
    exact stepsTo_endHandler hlimit hi
  · rename_i i hcall hret hleave hend hi
    have hcontrol : i.isControl = false := by
      cases i with
      | call ref => exact (hcall ref rfl).elim
      | ret => exact (hret rfl).elim
      | leave label => exact (hleave label rfl).elim
      | endFinally => exact (hend rfl).elim
      | _ => rfl
    unfold execute
    split
    · rename_i b t he
      exact .executed hlimit hi hcontrol (Activation.executes_of_yields hcontrol he)
    · rename_i f t he
      exact .faulted hlimit hi hcontrol he

/-- A call of a method begins, or it is a crash at the call. -/
theorem StepsTo.of_call {r : Run} {p : Progress} {ref : MethodRef} (h : StepsTo program limits r p)
    (hlimit : r.steps < limits.steps) (hi : r.current.instruction? = some (.call ref)) :
    (∃ c, p = raise r.store (r.steps + 1) c r.current r.callers) ∨
      ∃ m callee, program.findMethod? ref.name = some m ∧
        Activation.enter m (r.current.stack.take m.parameters.length).reverse
          r.store.depth limits.depth = .ok callee ∧
        p = .more ⟨r.store.opened, r.steps + 1, callee,
          { r.current with stack := r.current.stack.drop m.parameters.length } :: r.callers⟩ := by
  cases h with
  | limit hle => exact absurd hlimit (Nat.not_lt.2 hle)
  | callMissing | callShort | callRefused => exact .inl ⟨_, rfl⟩
  | callEntered _ hj hm _ henter =>
    rw [hi] at hj
    cases hj
    exact .inr ⟨_, _, hm, henter, rfl⟩
  | executed _ hj hcontrol | faulted _ hj hcontrol =>
    rw [hi] at hj
    cases hj
    cases hcontrol
  | fellOff _ hj | retEmpty _ hj | returned _ hj | handlerReturned _ hj | leaveUnbound _ hj
  | jumped _ hj | left _ hj | stray _ hj | nextHandler _ hj | jumpDone _ hj | crashDone _ hj =>
    rw [hi] at hj
    cases hj

/-- A step within the limit does what its instruction says. -/
theorem step_of_instruction {store : Store} {steps : Nat} {current : Activation}
    {callers : List Activation} {i : Instruction} (hlimit : steps < limits.steps) :
    current.instruction? = some i → step program limits ⟨store, steps, current, callers⟩ =
      match i with
      | .call method => call program limits ⟨store, steps + 1, current, callers⟩ method.name
      | .ret => ret ⟨store, steps + 1, current, callers⟩
      | .leave label => leave ⟨store, steps + 1, current, callers⟩ label
      | .endFinally => endHandler ⟨store, steps + 1, current, callers⟩
      | i => execute ⟨store, steps + 1, current, callers⟩ i := by
  intro hi
  unfold step
  rw [if_neg (Nat.not_le_of_lt hlimit)]
  dsimp only
  rw [hi]
  cases i <;> rfl

/-- The steps listed are those that the machine makes. -/
theorem StepsTo.step_eq {r : Run} {p : Progress} (h : StepsTo program limits r p) :
    r.step program limits = p := by
  obtain ⟨store, steps, current, callers⟩ := r
  have hplain : ∀ {i : Instruction}, steps < limits.steps → current.instruction? = some i →
      i.isControl = false → step program limits ⟨store, steps, current, callers⟩ =
        execute ⟨store, steps + 1, current, callers⟩ i := by
    intro i hlimit hi hcontrol
    rw [step_of_instruction hlimit hi]
    cases i <;> first | rfl | cases hcontrol
  cases h with
  | limit hlimit =>
    unfold step
    rw [if_pos hlimit]
  | fellOff hlimit hi =>
    unfold step
    rw [if_neg (Nat.not_le_of_lt hlimit)]
    dsimp only at hi ⊢
    rw [hi]
    rfl
  | @executed i b t hlimit hi hcontrol hexec =>
    have hyields : current.execute i store = (.ok b, t) := Activation.yields_of_executes hexec
    rw [hplain hlimit hi hcontrol]
    simp only [execute, hyields]
  | @faulted i f t hlimit hi hcontrol hfails =>
    have hfails : current.execute i store = (.error f, t) := hfails
    rw [hplain hlimit hi hcontrol]
    simp only [execute, hfails]
    rfl
  | callMissing hlimit hi hm =>
    rw [step_of_instruction hlimit hi]
    dsimp only
    unfold call
    rw [hm]
    rfl
  | callShort hlimit hi hm hlen =>
    rw [step_of_instruction hlimit hi]
    dsimp only at hlen ⊢
    unfold call Activation.popMany?
    rw [hm]
    simp only [if_pos hlen]
    rfl
  | callRefused hlimit hi hm hlen he =>
    rw [step_of_instruction hlimit hi]
    dsimp only
    unfold call
    rw [hm]
    simp only [Activation.popMany?_eq_some.2 ⟨hlen, rfl, rfl⟩, he]
    rfl
  | callEntered hlimit hi hm hlen he =>
    rw [step_of_instruction hlimit hi]
    dsimp only
    unfold call
    rw [hm]
    simp only [Activation.popMany?_eq_some.2 ⟨hlen, rfl, rfl⟩, he]
  | retEmpty hlimit hi hvoid hs =>
    rw [step_of_instruction hlimit hi]
    dsimp only at hvoid hs ⊢
    unfold ret
    simp only [if_neg hvoid, Activation.pop, hs]
    rfl
  | returned hlimit hi hvalue hp =>
    rw [step_of_instruction hlimit hi]
    dsimp only at hvalue hp ⊢
    unfold ret
    rcases hvalue with ⟨hvoid, rfl⟩ | ⟨hvoid, v, rest, hs, rfl⟩
    · simp only [if_pos hvoid, hp]
      exact finish_eq_resume _ _
    · simp only [if_neg hvoid, Activation.pop, hs, hp]
      exact finish_eq_resume _ _
  | handlerReturned hlimit hi hvalue hp =>
    rw [step_of_instruction hlimit hi]
    dsimp only at hvalue hp ⊢
    unfold ret
    rcases hvalue with ⟨hvoid, rfl⟩ | ⟨hvoid, v, rest, hs, rfl⟩
    · simp only [if_pos hvoid, hp]
      exact abandon_eq_resume _ _
    · simp only [if_neg hvoid, Activation.pop, hs, hp]
      exact abandon_eq_resume _ _
  | leaveUnbound hlimit hi hl =>
    rw [step_of_instruction hlimit hi]
    dsimp only at hl ⊢
    unfold leave Activation.target
    simp only [hl]
    rfl
  | jumped hlimit hi hl hleaving =>
    rw [step_of_instruction hlimit hi]
    unfold Activation.leaving at hleaving
    dsimp only at hl hleaving ⊢
    unfold leave
    simp only [Activation.target_eq_ok.2 hl, hleaving, Activation.runHandlers]
    rfl
  | left hlimit hi hl hleaving =>
    rw [step_of_instruction hlimit hi]
    unfold Activation.leaving at hleaving
    dsimp only at hl hleaving ⊢
    unfold leave
    simp only [Activation.target_eq_ok.2 hl, hleaving, Activation.runHandlers]
    rfl
  | stray hlimit hi hp =>
    rw [step_of_instruction hlimit hi]
    dsimp only at hp ⊢
    unfold endHandler
    simp only [hp]
    exact abandon_eq_resume _ _
  | nextHandler hlimit hi hp hrest =>
    rw [step_of_instruction hlimit hi]
    dsimp only at hp ⊢
    unfold endHandler
    simp only [hp, hrest, Activation.runHandlers]
    rfl
  | jumpDone hlimit hi hp hrest hc =>
    rw [step_of_instruction hlimit hi]
    dsimp only at hp ⊢
    unfold endHandler
    simp only [hp, hrest, hc, Activation.runHandlers]
    rfl
  | crashDone hlimit hi hp hrest hc =>
    rw [step_of_instruction hlimit hi]
    dsimp only at hp ⊢
    unfold endHandler
    simp only [hp, hrest, hc, Activation.runHandlers]
    exact abandon_eq_resume _ _

end Run

end ManagedC
