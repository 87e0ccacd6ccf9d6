import ManagedC.Proofs.Run.Outcome

/-!
# Where runs lead

`Run.Leads` says that the machine comes from one run to another, and `Run.LeadsBy` that a property
holds of the runs on the way. What holds along the way is proved
forwards, one step at a time (`Progress.Always`). The calls that wait at the bottom are out of reach of
those above them: a step leaves them as they are, or the call just above them ends and they go on
(`Run.StepsTo.bottom`). What holds of the variables of every call is put to the test only when an
instruction inside a call is executed and when a call begins (`Run.StepsTo.forall_calls`).
-/

namespace ManagedC

variable {program : Module} {limits : Limits}

namespace Run

/-- The machine comes from one run to another, and a property holds of the runs before the last. -/
inductive LeadsBy (program : Module) (limits : Limits) (P : Run → Prop) : Run → Run → Prop where
  | refl {r : Run} : LeadsBy program limits P r r
  /-- A step is made first. -/
  | step {r r' r'' : Run} : P r → r.step program limits = .more r' →
    LeadsBy program limits P r' r'' → LeadsBy program limits P r r''

/-- The machine comes from one run to another. -/
abbrev Leads (program : Module) (limits : Limits) : Run → Run → Prop :=
  LeadsBy program limits fun _ => True

namespace LeadsBy

variable {P Q : Run → Prop} {r r' r'' : Run}

theorem trans (h : LeadsBy program limits P r r') (h' : LeadsBy program limits P r' r'') :
    LeadsBy program limits P r r'' := by
  induction h with
  | refl => exact h'
  | step hr hstep _ ih => exact .step hr hstep (ih h')

theorem single (hr : P r) (h : r.StepsTo program limits (.more r')) :
    LeadsBy program limits P r r' :=
  .step hr h.step_eq .refl

theorem mono (hPQ : ∀ r, P r → Q r) (h : LeadsBy program limits P r r') :
    LeadsBy program limits Q r r' := by
  induction h with
  | refl => exact .refl
  | step hr hstep _ ih => exact .step (hPQ _ hr) hstep ih

theorem leads (h : LeadsBy program limits P r r') : r.Leads program limits r' :=
  h.mono fun _ _ => trivial

/-- The run that is led to ends as the first one does. -/
theorem ends_iff {o : Ending} (h : LeadsBy program limits P r r') :
    Progress.Ends program limits (.more r) o ↔ Progress.Ends program limits (.more r') o := by
  induction h with
  | refl => exact Iff.rfl
  | step _ hstep _ ih => rw [Progress.Ends.more_iff, hstep, ih]

/-- What each step of a kind keeps is kept by all of them. -/
theorem keeps (hstep : ∀ r r', P r → Q r → r.StepsTo program limits (.more r') → Q r')
    (h : LeadsBy program limits P r r') (hr : Q r) : Q r' := by
  induction h with
  | refl => exact hr
  | @step r r₁ _ hP hmore _ ih =>
    have hsteps : r.StepsTo program limits (r.step program limits) := Run.stepsTo_step r
    rw [hmore] at hsteps
    exact ih (hstep r r₁ hP hr hsteps)

end LeadsBy

/-- The machine some steps later, if the outermost call has not ended. -/
def after? (program : Module) (limits : Limits) : Nat → Run → Option Run
  | 0, r => some r
  | n + 1, r =>
    match r.step program limits with
    | .more r => r.after? program limits n
    | .done _ _ _ => none

theorem leads_of_after {n : Nat} {r r' : Run} (h : r.after? program limits n = some r') :
    r.Leads program limits r' := by
  induction n generalizing r with
  | zero =>
    cases h
    exact .refl
  | succ n ih =>
    rw [after?] at h
    split at h
    · rename_i hstep
      exact .step trivial hstep (ih h)
    · cases h

end Run

/-! ## What holds along a run -/

/-- A property holds of all runs that the machine comes to. -/
def Progress.Always (program : Module) (limits : Limits) (P : Run → Prop) (p : Progress) : Prop :=
  ∀ r r', p = .more r → r.Leads program limits r' → P r'

namespace Progress.Always

variable {P Q : Run → Prop} {r : Run}

theorem done {result : CallResult} {store : Store} {steps : Nat} :
    Always program limits P (.done result store steps) := by
  rintro r r' ⟨⟩

theorem more (hr : P r) (h : Always program limits P (r.step program limits)) :
    Always program limits P (.more r) := by
  rintro _ r' ⟨⟩ hleads
  cases hleads with
  | refl => exact hr
  | step _ hstep hleads => exact h _ _ hstep hleads

theorem head (h : Always program limits P (.more r)) : P r := h r r rfl .refl

theorem tail (h : Always program limits P (.more r)) :
    Always program limits P (r.step program limits) := fun _ _ hr' hleads =>
  h r _ rfl (.step trivial hr' hleads)

/-- What every step keeps always holds. -/
theorem of_step (hstep : ∀ r r', Q r → r.StepsTo program limits (.more r') → Q r')
    (hP : ∀ r, Q r → P r) {p : Progress} (hp : ∀ r, p = .more r → Q r) :
    Always program limits P p := fun r r' hr hleads =>
  hP r' (hleads.keeps (fun r r' _ => hstep r r') (hp r hr))

end Progress.Always

/-! ## Calls at the bottom -/

namespace Run

/-- A call at the bottom after a step of the calls above it: it still waits, it goes on after its call
instruction, or it crashes there and one of its handlers begins. -/
inductive Bottom (host : Activation) (r : Run) : Prop where
  /-- There are calls above it. -/
  | waiting (guests : List Activation) : r.callers = guests ++ [host] → Bottom host r
  /-- The call that it waited for has returned. -/
  | resumed (value : Option Value) : r.callers = [] →
    r.current = { host with stack := value.toList ++ host.stack }.advance → Bottom host r
  /-- The call that it waited for has crashed. -/
  | crashed {region : Region} {rest : List Region} {c : Crash} : host.covering = region :: rest →
    r.callers = [] → r.current = host.enterHandler region rest (.fail c) → Bottom host r

variable {host : Activation} {guests : List Activation} {s : Store} {steps : Nat} {r r' : Run}

theorem bottom_crash {c : Crash} (h : raise s steps c host [] = .more r) : Bottom host r := by
  cases hhost : host.covering with
  | nil =>
    rw [raise_of_covering_nil hhost] at h
    cases h
  | cons region rest =>
    rw [raise_of_covering_cons hhost] at h
    cases h
    exact .crashed hhost rfl rfl

theorem bottom_raise {guests : List Activation} {a : Activation} {s : Store} {c : Crash}
    (h : raise s steps c a (guests ++ [host]) = .more r) : Bottom host r := by
  cases hcovering : a.covering with
  | cons region rest =>
    rw [raise_of_covering_cons hcovering] at h
    cases h
    exact .waiting guests rfl
  | nil =>
    rw [raise_of_covering_nil hcovering] at h
    cases guests with
    | nil => exact bottom_crash h
    | cons guest guests => exact bottom_raise h
termination_by guests.length

theorem bottom_resume {result : CallResult}
    (h : resume (guests ++ [host]) result s steps = .more r) : Bottom host r := by
  cases guests with
  | nil =>
    match result with
    | .error c => exact bottom_crash h
    | .ok none =>
      cases h
      exact .resumed none rfl rfl
    | .ok (some v) =>
      cases h
      exact .resumed (some v) rfl rfl
  | cons guest guests =>
    match result with
    | .error c => exact bottom_raise h
    | .ok none | .ok (some v) =>
      cases h
      exact .waiting guests rfl

/-- A step does to a call at the bottom nothing but to let it go on. -/
theorem StepsTo.bottom (h : r.StepsTo program limits (.more r')) (hr : r.callers = guests ++ [host]) :
    Bottom host r' := by
  obtain ⟨store, steps, current, callers⟩ := r
  obtain rfl : callers = guests ++ [host] := hr
  generalize hp : Progress.more r' = p at h
  cases h with
  | limit | fellOff | faulted | callMissing | callShort | callRefused | retEmpty | leaveUnbound =>
    exact bottom_raise hp.symm
  | returned | handlerReturned | stray | crashDone => exact bottom_resume hp.symm
  | executed | jumped | left | nextHandler | jumpDone =>
    cases hp
    exact .waiting guests rfl
  | callEntered =>
    cases hp
    exact .waiting (_ :: guests) rfl

end Run

/-! ## All calls -/

/-- The property is one of the method and the variables of a call. -/
def Activation.OfVariables (P : Activation → Prop) : Prop :=
  ∀ a b : Activation, b.method = a.method → b.arguments = a.arguments → b.locals = a.locals →
    P a → P b

namespace Run

variable {P : Activation → Prop} {a : Activation} {callers : List Activation} {s : Store}
  {steps : Nat} {r r' : Run}

/-- A crash leaves the variables of calls as they are. -/
theorem forall_raise {c : Crash} (hP : Activation.OfVariables P) (ha : P a)
    (hcallers : ∀ b ∈ callers, P b) (h : raise s steps c a callers = .more r) :
    ∀ b ∈ r.current :: r.callers, P b := by
  induction callers generalizing a s with
  | nil =>
    cases hcovering : a.covering with
    | nil =>
      rw [raise_of_covering_nil hcovering] at h
      cases h
    | cons region rest =>
      rw [raise_of_covering_cons hcovering] at h
      cases h
      exact List.forall_mem_cons.2 ⟨hP a _ rfl rfl rfl ha, hcallers⟩
  | cons caller callers ih =>
    cases hcovering : a.covering with
    | nil =>
      rw [raise_of_covering_nil hcovering] at h
      obtain ⟨hcaller, hrest⟩ := List.forall_mem_cons.1 hcallers
      exact ih hcaller hrest h
    | cons region rest =>
      rw [raise_of_covering_cons hcovering] at h
      cases h
      exact List.forall_mem_cons.2 ⟨hP a _ rfl rfl rfl ha, hcallers⟩

/-- The end of a call leaves the variables of the others as they are. -/
theorem forall_resume {result : CallResult} (hP : Activation.OfVariables P)
    (hcallers : ∀ b ∈ callers, P b) (h : resume callers result s steps = .more r) :
    ∀ b ∈ r.current :: r.callers, P b := by
  cases callers with
  | nil => cases h
  | cons caller callers =>
    obtain ⟨hcaller, hrest⟩ := List.forall_mem_cons.1 hcallers
    match result with
    | .error c => exact forall_raise hP hcaller hrest h
    | .ok none | .ok (some v) =>
      cases h
      exact List.forall_mem_cons.2 ⟨hP caller _ rfl rfl rfl hcaller, hrest⟩

/-- A step changes variables by an instruction inside a call, and makes new ones when a call begins. -/
theorem StepsTo.forall_calls (hP : Activation.OfVariables P)
    (hexec : ∀ i b t, r.current.Executes r.store i b t → P r.current → P b)
    (henter : ∀ ref m regions, r.current.instruction? = some (.call ref) →
      program.findMethod? ref.name = some m → m.parameters.length ≤ r.current.stack.length →
      P ⟨m, regions, (r.current.stack.take m.parameters.length).reverse.toArray,
        m.locals.map fun v => .zeroOf v.type, [], 0, []⟩)
    (h : ∀ b ∈ r.current :: r.callers, P b) (hstep : r.StepsTo program limits (.more r')) :
    ∀ b ∈ r'.current :: r'.callers, P b := by
  obtain ⟨store, steps, a, callers⟩ := r
  obtain ⟨ha, hcallers⟩ := List.forall_mem_cons.1 h
  dsimp only at ha hcallers hexec henter
  generalize hp : Progress.more r' = p at hstep
  cases hstep with
  | limit | fellOff | faulted | callMissing | callShort | callRefused | retEmpty | leaveUnbound =>
    exact forall_raise hP ha hcallers hp.symm
  | returned | handlerReturned | stray | crashDone => exact forall_resume hP hcallers hp.symm
  | executed _ _ _ h =>
    cases hp
    exact List.forall_mem_cons.2 ⟨hexec _ _ _ h ha, hcallers⟩
  | jumped | left | nextHandler | jumpDone =>
    cases hp
    exact List.forall_mem_cons.2 ⟨hP a _ rfl rfl rfl ha, hcallers⟩
  | callEntered _ hi hm hlength hcallee =>
    cases hp
    obtain ⟨-, -, regions, -, rfl⟩ := Activation.enter_eq_ok.1 hcallee
    exact List.forall_mem_cons.2 ⟨henter _ _ _ hi hm hlength,
      List.forall_mem_cons.2 ⟨hP a _ rfl rfl rfl ha, hcallers⟩⟩

end Run

end ManagedC
