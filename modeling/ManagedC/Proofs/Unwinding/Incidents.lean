import ManagedC.Proofs.Run.Termination

/-!
# What happens to handlers in a run

A step of the machine is listed as the incidents in it that have to do with errors and handlers
(`Run.Shows`): an instruction faults, an error comes up in a call, a handler begins or ends, a jump is
made or arrives, a call ends with an error. The incidents of all steps to the end of a run are its
history (`Progress.History`). Main statements: every run that has an ending has a history, which belongs
to that ending (`Progress.History.exists_of_ends`, `Progress.History.ends`), and what the run ends with is the
error that came about last (`Progress.History.error_eq`).
-/

namespace ManagedC

/-- Something in a run that has to do with errors and handlers. It happens in a call for which others
wait. -/
inductive Incident where
  /-- An instruction faults. -/
  | fault (callers : List Activation) (a : Activation) (c : Crash)
  /-- A call has ended with an error, which comes up at the call instruction. -/
  | received (callers : List Activation) (a : Activation) (c : Crash)
  /-- The end of a handler where none is running, or a return while one is: the call is given up at
  once. -/
  | givenUp (callers : List Activation) (a : Activation) (c : Crash)
  /-- A jump out of regions. -/
  | leaves (callers : List Activation) (a : Activation) (target : Nat)
  /-- Control arrives where it was to go. -/
  | lands (callers : List Activation) (a : Activation)
  /-- A handler begins. -/
  | begins (callers : List Activation) (region : Region)
  /-- A handler ends. -/
  | ends (callers : List Activation)
  /-- The call ends with an error. -/
  | exits (callers : List Activation) (c : Crash)

namespace Incident

/-- The calls that wait for the one in which it happens. -/
def callers : Incident → List Activation
  | fault callers _ _ | received callers _ _ | givenUp callers _ _ | leaves callers _ _
  | lands callers _ | begins callers _ | ends callers | exits callers _ => callers

/-- The error that comes up in a call, with the calls that wait and the call itself. -/
def error? : Incident → Option (List Activation × Activation × Crash)
  | fault callers a c | received callers a c => some (callers, a, c)
  | _ => none

/-- The error that comes about. -/
def origin? : Incident → Option Crash
  | fault _ _ c | givenUp _ _ c => some c
  | _ => none

/-- A call ends with an error, for which others wait. -/
def ended (c : Crash) : List Activation → List Incident
  | [] => [.exits [] c]
  | caller :: callers => .exits (caller :: callers) c :: .received callers caller c ::
    match caller.covering with
    | [] => ended c callers
    | region :: _ => [.begins callers region]

/-- An error comes up in a call: a handler begins, or the call ends. -/
def raised (c : Crash) (a : Activation) (callers : List Activation) : List Incident :=
  match a.covering with
  | [] => ended c callers
  | region :: _ => [.begins callers region]

theorem raised_nil {c : Crash} {a : Activation} {callers : List Activation} (h : a.covering = []) :
    raised c a callers = ended c callers := by
  unfold raised
  rw [h]

theorem raised_cons {c : Crash} {a : Activation} {callers : List Activation} {region : Region}
    {rest : List Region} (h : a.covering = region :: rest) :
    raised c a callers = [.begins callers region] := by
  unfold raised
  rw [h]

theorem ended_cons (c : Crash) (caller : Activation) (callers : List Activation) :
    ended c (caller :: callers) =
      .exits (caller :: callers) c :: .received callers caller c :: raised c caller callers := rfl

end Incident

variable {program : Module} {limits : Limits}

namespace Run

/-- An instruction faults, with the store that it leaves and the number of steps made. -/
inductive Crashes (program : Module) (limits : Limits) (r : Run) : Store → Nat → Crash → Prop where
  | limit : limits.steps ≤ r.steps →
    Crashes program limits r r.store r.steps (r.current.crash (.stepLimitExceeded limits.steps))
  | fellOff : r.steps < limits.steps → r.current.instruction? = none →
    Crashes program limits r r.store (r.steps + 1)
      (r.current.crash (.invalidProgram (.fellOff r.current.method.name)))
  /-- An instruction inside the call. -/
  | faulted {i : Instruction} {f : Fault} {t : Store} : r.steps < limits.steps →
    r.current.instruction? = some i → i.isControl = false →
    Fails (r.current.execute i) r.store f t →
    Crashes program limits r t (r.steps + 1) (r.current.crash f)
  /-- A call of a method that does not exist. -/
  | callMissing {ref : MethodRef} : r.steps < limits.steps →
    r.current.instruction? = some (.call ref) → program.findMethod? ref.name = none →
    Crashes program limits r r.store (r.steps + 1) (r.current.crash (.missingMethod ref.name))
  /-- A call with too few values on the stack. -/
  | callShort {ref : MethodRef} {m : Method} : r.steps < limits.steps →
    r.current.instruction? = some (.call ref) → program.findMethod? ref.name = some m →
    r.current.stack.length < m.parameters.length →
    Crashes program limits r r.store (r.steps + 1)
      (r.current.crash (.invalidProgram (.missingArguments ref.name)))
  /-- A call of a method that cannot begin. -/
  | callRefused {ref : MethodRef} {m : Method} {f : Fault} : r.steps < limits.steps →
    r.current.instruction? = some (.call ref) → program.findMethod? ref.name = some m →
    m.parameters.length ≤ r.current.stack.length →
    Activation.enter m (r.current.stack.take m.parameters.length).reverse r.store.depth
      limits.depth = .error f →
    Crashes program limits r r.store (r.steps + 1) ⟨m.name, 0, f⟩
  /-- A return without a value. -/
  | retEmpty : r.steps < limits.steps → r.current.instruction? = some .ret →
    r.current.method.returnType ≠ .void → r.current.stack = [] →
    Crashes program limits r r.store (r.steps + 1)
      (r.current.crash (.invalidProgram (.stackUnderflow r.current.method.name)))
  /-- A jump out of regions without a target. -/
  | leaveUnbound {label : Label} : r.steps < limits.steps →
    r.current.instruction? = some (.leave label) →
    r.current.method.body.labels.offset? label = none →
    Crashes program limits r r.store (r.steps + 1)
      (r.current.crash (.invalidProgram (.unboundLabel label)))

/-- A call is given up, with the error that this is. -/
inductive GivesUp (limits : Limits) (r : Run) : Crash → Prop where
  /-- A handler ends where none is running. -/
  | stray : r.steps < limits.steps → r.current.instruction? = some .endFinally →
    r.current.pending = [] →
    GivesUp limits r ⟨r.current.method.name, 0, .invalidProgram .strayEndFinally⟩
  | handlerReturned {value : Option Value} {p : Pending} {outer : List Pending} :
    r.steps < limits.steps → r.current.instruction? = some .ret → r.current.Returns value →
    r.current.pending = p :: outer →
    GivesUp limits r ⟨r.current.method.name, p.handlerStart, .invalidProgram .handlerReturned⟩

/-- The incidents of a step. -/
inductive Shows (program : Module) (limits : Limits) (r : Run) : List Incident → Progress → Prop where
  /-- An instruction stays inside the call. -/
  | executed {i : Instruction} {b : Activation} {t : Store} : r.steps < limits.steps →
    r.current.instruction? = some i → i.isControl = false → r.current.Executes r.store i b t →
    Shows program limits r [] (.more ⟨t, r.steps + 1, b, r.callers⟩)
  | called {ref : MethodRef} {m : Method} {callee : Activation} : r.steps < limits.steps →
    r.current.instruction? = some (.call ref) → program.findMethod? ref.name = some m →
    m.parameters.length ≤ r.current.stack.length →
    Activation.enter m (r.current.stack.take m.parameters.length).reverse r.store.depth
      limits.depth = .ok callee →
    Shows program limits r [] (.more ⟨r.store.opened, r.steps + 1, callee,
      { r.current with stack := r.current.stack.drop m.parameters.length } :: r.callers⟩)
  | returned {value : Option Value} : r.steps < limits.steps →
    r.current.instruction? = some .ret → r.current.Returns value → r.current.pending = [] →
    Shows program limits r []
      (resume r.callers (.ok value) (r.current.close r.store) (r.steps + 1))
  | crashes {t : Store} {steps : Nat} {c : Crash} : r.Crashes program limits t steps c →
    Shows program limits r (.fault r.callers r.current c :: Incident.raised c r.current r.callers)
      (raise t steps c r.current r.callers)
  /-- The call is given up. -/
  | givesUp {c : Crash} : r.GivesUp limits c →
    Shows program limits r (.givenUp r.callers r.current c :: Incident.ended c r.callers)
      (resume r.callers (.error c) (r.current.close r.store) (r.steps + 1))
  /-- A jump leaves no region. -/
  | jumped {label : Label} {target : Nat} : r.steps < limits.steps →
    r.current.instruction? = some (.leave label) →
    r.current.method.body.labels.offset? label = some target → r.current.leaving target = [] →
    Shows program limits r [.leaves r.callers r.current target,
        .lands r.callers { r.current with stack := [], pc := target }]
      (.more ⟨r.store, r.steps + 1, { r.current with stack := [], pc := target }, r.callers⟩)
  /-- A jump leaves regions, and the first handler begins. -/
  | left {label : Label} {target : Nat} {region : Region} {rest : List Region} :
    r.steps < limits.steps → r.current.instruction? = some (.leave label) →
    r.current.method.body.labels.offset? label = some target →
    r.current.leaving target = region :: rest →
    Shows program limits r [.leaves r.callers r.current target, .begins r.callers region]
      (.more ⟨r.store, r.steps + 1, r.current.enterHandler region rest (.jump target), r.callers⟩)
  /-- A handler ends and the next one begins. -/
  | nextHandler {p : Pending} {outer : List Pending} {region : Region} {rest : List Region} :
    r.steps < limits.steps → r.current.instruction? = some .endFinally →
    r.current.pending = p :: outer → p.rest = region :: rest →
    Shows program limits r [.ends r.callers, .begins r.callers region] (.more ⟨r.store, r.steps + 1,
      { r.current with pending := outer }.enterHandler region rest p.completion, r.callers⟩)
  /-- The last handler of a jump ends, and the jump goes on. -/
  | jumpDone {p : Pending} {outer : List Pending} {target : Nat} : r.steps < limits.steps →
    r.current.instruction? = some .endFinally → r.current.pending = p :: outer → p.rest = [] →
    p.completion = .jump target →
    Shows program limits r [.ends r.callers,
        .lands r.callers { r.current with stack := [], pc := target, pending := outer }]
      (.more ⟨r.store, r.steps + 1, { r.current with stack := [], pc := target, pending := outer },
        r.callers⟩)
  /-- The last handler of an error ends, and the call with it. -/
  | crashDone {p : Pending} {outer : List Pending} {c : Crash} : r.steps < limits.steps →
    r.current.instruction? = some .endFinally → r.current.pending = p :: outer → p.rest = [] →
    p.completion = .fail c →
    Shows program limits r (.ends r.callers :: Incident.ended c r.callers)
      (resume r.callers (.error c) (r.current.close r.store) (r.steps + 1))

variable {r : Run} {es : List Incident} {p : Progress}

theorem StepsTo.exists_shows (h : r.StepsTo program limits p) : ∃ es, r.Shows program limits es p := by
  cases h with
  | limit hlimit => exact ⟨_, .crashes (.limit hlimit)⟩
  | fellOff hlimit hi => exact ⟨_, .crashes (.fellOff hlimit hi)⟩
  | executed hlimit hi hcontrol hexec => exact ⟨_, .executed hlimit hi hcontrol hexec⟩
  | faulted hlimit hi hcontrol hfails => exact ⟨_, .crashes (.faulted hlimit hi hcontrol hfails)⟩
  | callMissing hlimit hi hm => exact ⟨_, .crashes (.callMissing hlimit hi hm)⟩
  | callShort hlimit hi hm hlen => exact ⟨_, .crashes (.callShort hlimit hi hm hlen)⟩
  | callRefused hlimit hi hm hlen he => exact ⟨_, .crashes (.callRefused hlimit hi hm hlen he)⟩
  | callEntered hlimit hi hm hlen he => exact ⟨_, .called hlimit hi hm hlen he⟩
  | retEmpty hlimit hi hvoid hs => exact ⟨_, .crashes (.retEmpty hlimit hi hvoid hs)⟩
  | returned hlimit hi hvalue hp => exact ⟨_, .returned hlimit hi hvalue hp⟩
  | handlerReturned hlimit hi hvalue hp => exact ⟨_, .givesUp (.handlerReturned hlimit hi hvalue hp)⟩
  | leaveUnbound hlimit hi hl => exact ⟨_, .crashes (.leaveUnbound hlimit hi hl)⟩
  | jumped hlimit hi hl hleaving => exact ⟨_, .jumped hlimit hi hl hleaving⟩
  | left hlimit hi hl hleaving => exact ⟨_, .left hlimit hi hl hleaving⟩
  | stray hlimit hi hp => exact ⟨_, .givesUp (.stray hlimit hi hp)⟩
  | nextHandler hlimit hi hp hrest => exact ⟨_, .nextHandler hlimit hi hp hrest⟩
  | jumpDone hlimit hi hp hrest hc => exact ⟨_, .jumpDone hlimit hi hp hrest hc⟩
  | crashDone hlimit hi hp hrest hc => exact ⟨_, .crashDone hlimit hi hp hrest hc⟩

/-- The incidents listed for a step are those of a step that the machine makes. -/
theorem Shows.stepsTo (h : r.Shows program limits es p) : r.StepsTo program limits p := by
  cases h with
  | executed hlimit hi hcontrol hexec => exact .executed hlimit hi hcontrol hexec
  | called hlimit hi hm hlen he => exact .callEntered hlimit hi hm hlen he
  | returned hlimit hi hvalue hp => exact .returned hlimit hi hvalue hp
  | crashes hcrashes =>
    cases hcrashes with
    | limit hlimit => exact .limit hlimit
    | fellOff hlimit hi => exact .fellOff hlimit hi
    | faulted hlimit hi hcontrol hfails => exact .faulted hlimit hi hcontrol hfails
    | callMissing hlimit hi hm => exact .callMissing hlimit hi hm
    | callShort hlimit hi hm hlen => exact .callShort hlimit hi hm hlen
    | callRefused hlimit hi hm hlen he => exact .callRefused hlimit hi hm hlen he
    | retEmpty hlimit hi hvoid hs => exact .retEmpty hlimit hi hvoid hs
    | leaveUnbound hlimit hi hl => exact .leaveUnbound hlimit hi hl
  | givesUp hgives =>
    cases hgives with
    | stray hlimit hi hp => exact .stray hlimit hi hp
    | handlerReturned hlimit hi hvalue hp => exact .handlerReturned hlimit hi hvalue hp
  | jumped hlimit hi hl hleaving => exact .jumped hlimit hi hl hleaving
  | left hlimit hi hl hleaving => exact .left hlimit hi hl hleaving
  | nextHandler hlimit hi hp hrest => exact .nextHandler hlimit hi hp hrest
  | jumpDone hlimit hi hp hrest hc => exact .jumpDone hlimit hi hp hrest hc
  | crashDone hlimit hi hp hrest hc => exact .crashDone hlimit hi hp hrest hc

end Run

/-! ## Histories -/

/-- The incidents of the steps that a run still makes, and what it ends with. -/
inductive Progress.History (program : Module) (limits : Limits) :
    Nat → Progress → List Incident → CallResult → Prop where
  | done {result : CallResult} {store : Store} {steps : Nat} :
    History program limits 0 (.done result store steps) [] result
  /-- A step is made first. -/
  | step {n : Nat} {r : Run} {p : Progress} {es es' : List Incident} {result : CallResult} :
    r.Shows program limits es p → History program limits n p es' result →
    History program limits (n + 1) (.more r) (es ++ es') result

namespace Progress.History

variable {n : Nat} {p : Progress} {es : List Incident} {result : CallResult}

/-- A run that has an ending has a history. -/
theorem exists_of_ends {o : Ending} (h : p.Ends program limits o) :
    ∃ n es, History program limits n p es o.1 := by
  induction h with
  | done => exact ⟨0, [], .done⟩
  | @more r o _ ih =>
    obtain ⟨n, es', hhistory⟩ := ih
    obtain ⟨es, hshows⟩ := (Run.stepsTo_step r).exists_shows
    exact ⟨n + 1, es ++ es', .step hshows hhistory⟩

/-- What a run ends with in a history is what it ends with. -/
theorem ends (h : History program limits n p es result) :
    ∃ store steps, p.Ends program limits (result, store, steps) := by
  induction h with
  | done => exact ⟨_, _, .done⟩
  | step hshows _ ih =>
    obtain ⟨store, steps, hends⟩ := ih
    exact ⟨store, steps, .more (by rwa [hshows.stepsTo.step_eq])⟩

/-- An incident in a history is one of a step; what every step keeps holds when that step is made. -/
theorem split {I : Progress → List Incident → Prop} (h : History program limits n p es result)
    (hstep : ∀ r es q front, I (.more r) front → r.Shows program limits es q → I q (front ++ es))
    {front : List Incident} (hp : I p front) {pre post : List Incident} {e : Incident}
    (hes : es = pre ++ e :: post) : ∃ m r q skipped before after rest,
      I (.more r) (front ++ skipped) ∧ r.Shows program limits (before ++ e :: after) q ∧
        History program limits m q rest result ∧ pre = skipped ++ before ∧ post = after ++ rest := by
  induction h generalizing front pre with
  | done => simp at hes
  | @step n r q shown rest result hshows hhistory ih =>
    rcases List.append_eq_append_iff.1 hes with ⟨before, rfl, hrest⟩ | ⟨after, hshown, hpost⟩
    · obtain ⟨m, r', q', skipped, before', after, rest', hI, hshows', hhistory', rfl, rfl⟩ :=
        ih (hstep _ _ _ _ hp hshows) hrest
      exact ⟨m, r', q', shown ++ skipped, before', after, rest',
        by rwa [← List.append_assoc], hshows', hhistory', (List.append_assoc _ _ _).symm, rfl⟩
    · cases after with
      | nil =>
        rw [List.append_nil] at hshown
        subst hshown
        obtain ⟨m, r', q', skipped, before', after, rest', hI, hshows', hhistory', hpre, rfl⟩ :=
          ih (hstep _ _ _ _ hp hshows) (show _ = [] ++ e :: post from hpost.symm)
        obtain ⟨rfl, rfl⟩ := List.append_eq_nil_iff.1 hpre.symm
        exact ⟨m, r', q', shown, [], after, rest', by rwa [List.append_nil] at hI, hshows', hhistory',
          (List.append_nil _).symm, rfl⟩
      | cons e' after =>
        obtain ⟨rfl, rfl⟩ := List.cons.inj hpost
        exact ⟨n, r, q, [], pre, after, rest, by rwa [List.append_nil], hshown ▸ hshows, hhistory, rfl,
          rfl⟩

end Progress.History

/-! ## The error that escapes -/

/-- The error that a handler runs for. -/
def Completion.error? : Completion → Option Crash
  | .fail c => some c
  | .jump _ => none

/-- The error that is on its way in a run, or that it has ended with. -/
def Progress.error? : Progress → Option Crash
  | .more r => ((r.current :: r.callers).flatMap (·.pending)).findSome? (·.completion.error?)
  | .done (.error c) _ _ => some c
  | .done (.ok _) _ _ => none

theorem Progress.error_more {store : Store} {steps : Nat} {a : Activation} {callers : List Activation} :
    (Progress.more ⟨store, steps, a, callers⟩).error? =
      (a.pending ++ callers.flatMap (·.pending)).findSome? (·.completion.error?) := rfl

/-- The error that came about last. -/
def Incident.latest? (es : List Incident) : Option Crash := (es.filterMap origin?).getLast?

namespace Incident

theorem latest_append (es es' : List Incident) : latest? (es ++ es') = (latest? es').or (latest? es) := by
  unfold latest?
  rw [List.filterMap_append, List.getLast?_append]

/-- No error comes about where a call ends with one. -/
theorem filterMap_ended {c : Crash} {callers : List Activation} :
    (ended c callers).filterMap origin? = [] := by
  induction callers with
  | nil => rfl
  | cons caller callers ih =>
    rw [ended_cons]
    unfold raised
    cases caller.covering with
    | nil => exact ih
    | cons region rest => rfl

theorem filterMap_raised {c : Crash} {a : Activation} {callers : List Activation} :
    (raised c a callers).filterMap origin? = [] := by
  unfold raised
  cases a.covering with
  | nil => exact filterMap_ended
  | cons region rest => rfl

end Incident

namespace Run

variable {c : Crash} {s : Store} {steps : Nat} {a : Activation} {callers : List Activation} {r : Run}
  {es : List Incident} {p : Progress}

theorem error_raise : ∀ {callers : List Activation} {a : Activation} {s : Store},
    (raise s steps c a callers).error? = some c := by
  intro callers
  induction callers with
  | nil =>
    intro a s
    cases hcovering : a.covering with
    | nil =>
      rw [raise_of_covering_nil hcovering]
      rfl
    | cons region rest =>
      rw [raise_of_covering_cons hcovering]
      rfl
  | cons caller callers ih =>
    intro a s
    cases hcovering : a.covering with
    | nil =>
      rw [raise_of_covering_nil hcovering]
      exact ih
    | cons region rest =>
      rw [raise_of_covering_cons hcovering]
      rfl

theorem error_resume : (resume callers (.error c) s steps).error? = some c := by
  cases callers with
  | nil => rfl
  | cons caller callers => exact error_raise

/-- The error on its way stays the same, unless another one comes about. -/
theorem Shows.error_eq (h : r.Shows program limits es p) :
    p.error? = (Incident.latest? es).or (Progress.more r).error? := by
  obtain ⟨store, steps, a, callers⟩ := r
  have hlatest : ∀ {e : Incident} {es : List Incident} {c : Crash}, e.origin? = some c →
      es.filterMap Incident.origin? = [] → Incident.latest? (e :: es) = some c := by
    intro e es c he hes
    unfold Incident.latest?
    rw [List.filterMap_cons, he, hes]
    rfl
  cases h with
  | executed _ _ _ hexec =>
    rw [Progress.error_more, Progress.error_more, hexec.same.pending]
    rfl
  | called _ _ _ _ henter =>
    obtain ⟨-, -, regions, -, rfl⟩ := Activation.enter_eq_ok.1 henter
    rfl
  | @returned value _ _ _ hpending =>
    dsimp only at hpending
    rw [Progress.error_more, hpending]
    cases callers with
    | nil => rfl
    | cons caller callers => cases value <;> rfl
  | crashes => rw [error_raise, hlatest rfl Incident.filterMap_raised, Option.some_or]
  | givesUp => rw [error_resume, hlatest rfl Incident.filterMap_ended, Option.some_or]
  | jumped | left => rfl
  | nextHandler _ _ hpending =>
    dsimp only at hpending
    rw [Progress.error_more, Progress.error_more, hpending]
    rfl
  | jumpDone _ _ hpending _ hc =>
    dsimp only at hpending
    rw [Progress.error_more, Progress.error_more, hpending, List.cons_append, List.findSome?_cons, hc]
    rfl
  | crashDone _ _ hpending _ hc =>
    dsimp only at hpending
    rw [error_resume, Progress.error_more, hpending, List.cons_append, List.findSome?_cons, hc]
    unfold Incident.latest?
    rw [List.filterMap_cons, Incident.filterMap_ended]
    rfl

end Run

namespace Progress.History

variable {n : Nat} {p : Progress} {es : List Incident} {result : CallResult}

/-- A run ends with the error that came about last, or without one. -/
theorem error_eq (h : History program limits n p es result) (store : Store) (steps : Nat) :
    (Progress.done result store steps).error? = (Incident.latest? es).or p.error? := by
  induction h with
  | @done result => cases result <;> rfl
  | step hshows _ ih =>
    rw [ih, hshows.error_eq, Incident.latest_append, Option.or_assoc]

end Progress.History

end ManagedC
