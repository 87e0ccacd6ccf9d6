import ManagedC.Proofs.Kinds.WellTyped
import ManagedC.Proofs.Program.CallTargets

/-!
# A call without the calls that it makes

Seen from a call, another call that it makes is one step: arguments are taken off the stack, and a result
may come back. `Activation.Moves` is such a step, and `Activation.Walks` are several, all before an
instruction. Main statements: while a run stays inside a part of a method, the call goes along in such
steps (`Run.LeadsBy.walks`), and straight-line code is executed one instruction after the other
(`Activation.Walks.performs`).
-/

namespace ManagedC

/-- No handler protects the call, and none runs in it. -/
structure Activation.Unguarded (a : Activation) : Prop where
  regions : a.regions = []
  pending : a.pending = []

namespace Activation

variable {program : Module} {limits : Limits} {a b c : Activation} {s t u : Store} {stop : Nat}

theorem Unguarded.covering (h : a.Unguarded) : a.covering = [] := by
  unfold Activation.covering
  rw [h.regions]
  rfl

theorem Unguarded.same (h : a.Unguarded) (hab : a.Same b) : b.Unguarded :=
  ⟨hab.regions.trans h.regions, hab.pending.trans h.pending⟩

/-- The call while it waits for a call of a method that it has made. -/
def awaiting (a : Activation) (m : Method) : Activation :=
  { a with stack := a.stack.drop m.parameters.length }

/-- The call when it goes on with the result of a call that it has waited for. -/
def resumed (a : Activation) (value : Option Value) : Activation :=
  { a with stack := value.toList ++ a.stack }.advance

/-- A step of a call: an instruction, or a call that it makes from its beginning to its end. -/
inductive Moves (program : Module) (a : Activation) (s : Store) : Activation → Store → Prop where
  /-- An instruction stays inside the call. -/
  | executed {i : Instruction} {b : Activation} {t : Store} : a.instruction? = some i →
    i.isControl = false → a.Executes s i b t → Moves program a s b t
  /-- A method is called and returns. -/
  | called {ref : MethodRef} {m : Method} {value : Option Value} {t : Store} :
    a.instruction? = some (.call ref) → program.findMethod? ref.name = some m →
    m.parameters.length ≤ a.stack.length → value.toList.length = m.results →
    Moves program a s ((a.awaiting m).resumed value) t
  /-- Control leaves protected regions, of which there are none. -/
  | left {label : Label} {target : Nat} : a.instruction? = some (.leave label) →
    a.method.body.labels.offset? label = some target →
    Moves program a s { a with stack := [], pc := target } s

/-- A call goes on in steps, each from before an instruction. -/
inductive Walks (program : Module) (stop : Nat) :
    Activation → Store → Activation → Store → Prop where
  | refl {a : Activation} {s : Store} : Walks program stop a s a s
  /-- A step is made first. -/
  | step {a b c : Activation} {s t u : Store} : a.pc < stop → a.Moves program s b t →
    Walks program stop b t c u → Walks program stop a s c u

theorem Moves.same (h : a.Moves program s b t) : a.Same b := by
  cases h with
  | executed _ _ hexec => exact hexec.same
  | called => exact ⟨rfl, rfl, rfl, rfl, rfl⟩
  | left => exact ⟨rfl, rfl, rfl, rfl, rfl⟩

theorem Walks.same (h : a.Walks program stop s b t) : a.Same b := by
  induction h with
  | refl => exact .refl _
  | step _ hmoves _ ih => exact hmoves.same.trans ih

/-- A call goes through code one instruction after the other. -/
inductive Performs : Activation → Store → List Instruction → Activation → Store → Prop where
  | nil {a : Activation} {s : Store} : Performs a s [] a s
  | cons {a b c : Activation} {s t u : Store} {i : Instruction} {code : List Instruction} :
    a.Executes s i b t → Performs b t code c u → Performs a s (i :: code) c u

/-- Straight-line code is gone through by a call that comes behind it. -/
theorem Walks.performs_first {code : List Instruction} (h : a.Walks program stop s c u)
    (hcode : a.method.HasCode a.pc code) (hstraight : ∀ i ∈ code, i.isStraight = true)
    (hc : a.pc + code.length ≤ c.pc) :
    ∃ b t, a.Performs s code b t ∧ b.pc = a.pc + code.length ∧ b.Walks program stop t c u := by
  induction code generalizing a s with
  | nil => exact ⟨a, s, .nil, rfl, h⟩
  | cons i code ih =>
    obtain ⟨hi, hstraight⟩ := List.forall_mem_cons.1 hstraight
    have hinstruction : a.instruction? = some i := hcode.head
    rw [List.length_cons] at hc ⊢
    cases h with
    | refl => omega
    | @step _ b _ _ t _ _ hmoves hrest =>
      cases hmoves with
      | executed hj _ hexec =>
        obtain rfl := Option.some.inj (hinstruction.symm.trans hj)
        have hpc : b.pc = a.pc + 1 := hexec.pc_of_isStraight hi
        have hcode : b.method.HasCode b.pc code := by
          rw [hpc, hexec.same.method]
          exact hcode.tail
        obtain ⟨d, v, hd, hdpc, hrest⟩ := ih hrest hcode hstraight (by omega)
        exact ⟨d, v, .cons hexec hd, by omega, hrest⟩
      | called hj | left hj =>
        obtain rfl := Option.some.inj (hinstruction.symm.trans hj)
        cases hi

/-- Straight-line code is gone through to its end. -/
theorem Walks.performs {code : List Instruction} (h : a.Walks program (a.pc + code.length) s c u)
    (hcode : a.method.HasCode a.pc code) (hstraight : ∀ i ∈ code, i.isStraight = true)
    (hc : c.pc = a.pc + code.length) : a.Performs s code c u := by
  obtain ⟨b, t, hb, hbpc, hrest⟩ := h.performs_first hcode hstraight (Nat.le_of_eq hc.symm)
  cases hrest with
  | refl => exact hb
  | step hlt => omega

/-- A call for which, directly or not, another call waits: that one called the method and has others
waiting below it. -/
inductive WorksFor (m : Method) (host : Activation) (outer : List Activation) :
    Activation → List Activation → Prop where
  | callee {a : Activation} : a.method = m → WorksFor m host outer a (host :: outer)
  /-- It was made by another such call. -/
  | deeper {a b : Activation} {callers : List Activation} : WorksFor m host outer b callers →
    WorksFor m host outer a (b :: callers)

namespace WorksFor

variable {m : Method} {host : Activation} {outer callers : List Activation}

/-- What the call does inside of itself makes no difference. -/
theorem replace (h : WorksFor m host outer a callers) (hm : b.method = a.method) :
    WorksFor m host outer b callers := by
  cases h with
  | callee ha => exact .callee (hm.trans ha)
  | deeper h => exact .deeper h

theorem length_lt (h : WorksFor m host outer a callers) : outer.length < callers.length := by
  induction h with
  | callee => exact Nat.lt_succ_self _
  | deeper _ ih => exact Nat.lt_succ_of_lt ih

end WorksFor

end Activation

open Activation

namespace Run

variable {program : Module} {limits : Limits} {r r' r₁ : Run} {a host : Activation}
  {outer callers : List Activation} {m : Method} {s : Store} {steps stop : Nat} {c : Crash}

/-- A crash in a call that no handler protects ends it. -/
theorem length_lt_of_raise (ha : a.covering = []) (h : raise s steps c a callers = .more r) :
    r.callers.length < callers.length := by
  rw [raise_of_covering_nil ha] at h
  cases callers with
  | nil => cases h
  | cons caller callers => exact Nat.lt_succ_of_le (callers_raise h)

/-- A crash in a call for which another one waits ends that one too, unless it is caught before. -/
theorem worksFor_raise (hhost : host.covering = []) (ha : WorksFor m host outer a callers)
    (h : raise s steps c a callers = .more r) :
    WorksFor m host outer r.current r.callers ∨ r.callers.length < outer.length := by
  induction ha generalizing s with
  | @callee a hm =>
    cases ha : a.covering with
    | cons region rest =>
      rw [raise_of_covering_cons ha] at h
      cases h
      exact .inl (.callee hm)
    | nil =>
      rw [raise_of_covering_nil ha] at h
      exact .inr (length_lt_of_raise hhost h)
  | @deeper a b callers hb ih =>
    cases ha : a.covering with
    | cons region rest =>
      rw [raise_of_covering_cons ha] at h
      cases h
      exact .inl (.deeper hb)
    | nil =>
      rw [raise_of_covering_nil ha] at h
      exact ih h

/-- A call ends for which, directly or not, another one waits: that one still waits, gets the result or
ends as well. -/
theorem worksFor_resume {result : CallResult} (hhost : host.covering = [])
    (ha : WorksFor m host outer a callers)
    (hresult : ∀ value, result = .ok value → value.toList.length = a.method.results)
    (h : resume callers result s steps = .more r) :
    WorksFor m host outer r.current r.callers ∨
      (∃ value : Option Value, value.toList.length = m.results ∧ r.callers = outer ∧
        r.current = host.resumed value) ∨
      r.callers.length < outer.length := by
  cases ha with
  | callee hm =>
    match result with
    | .error c => exact .inr (.inr (length_lt_of_raise hhost h))
    | .ok none =>
      cases h
      exact .inr (.inl ⟨none, hm ▸ hresult none rfl, rfl, rfl⟩)
    | .ok (some v) =>
      cases h
      exact .inr (.inl ⟨some v, hm ▸ hresult (some v) rfl, rfl, rfl⟩)
  | deeper hb =>
    match result with
    | .error c => exact (worksFor_raise hhost hb h).imp_right .inr
    | .ok none | .ok (some v) =>
      cases h
      exact .inl (hb.replace rfl)

/-- A step of a call for which, directly or not, another one waits. -/
theorem StepsTo.worksFor (hhost : host.covering = [])
    (hr : WorksFor m host outer r.current r.callers) (h : r.StepsTo program limits (.more r')) :
    WorksFor m host outer r'.current r'.callers ∨
      (∃ value : Option Value, value.toList.length = m.results ∧ r'.callers = outer ∧
        r'.current = host.resumed value) ∨
      r'.callers.length < outer.length := by
  obtain ⟨store, steps, current, callers⟩ := r
  generalize hp : Progress.more r' = p at h
  cases h with
  | limit | fellOff | faulted | callMissing | callShort | callRefused | retEmpty | leaveUnbound =>
    exact (worksFor_raise hhost hr hp.symm).imp_right .inr
  | returned _ _ hvalue _ =>
    refine worksFor_resume hhost hr ?_ hp.symm
    rintro _ ⟨⟩
    rcases hvalue with ⟨hvoid, rfl⟩ | ⟨hvoid, v, rest, -, rfl⟩
    · exact (if_pos hvoid).symm
    · exact (if_neg hvoid).symm
  | handlerReturned | stray | crashDone => exact worksFor_resume hhost hr (by simp) hp.symm
  | executed _ _ _ hexec =>
    cases hp
    exact .inl (hr.replace hexec.same.method)
  | jumped | left | nextHandler | jumpDone =>
    cases hp
    exact .inl (hr.replace rfl)
  | callEntered =>
    cases hp
    exact .inl (.deeper (hr.replace rfl))

/-- The end of a call leaves fewer calls. -/
theorem length_lt_of_resume {result : CallResult} (h : resume callers result s steps = .more r) :
    r.callers.length < callers.length := by
  cases callers with
  | nil => cases h
  | cons caller callers =>
    match result with
    | .error c => exact Nat.lt_succ_of_le (callers_raise h)
    | .ok none | .ok (some v) =>
      cases h
      exact Nat.lt_succ_self _

/-- A step of a call that no handler protects: it is one inside of the call, it begins another call, or
the call ends. -/
theorem StepsTo.moves (hr : r.current.Unguarded) (h : r.StepsTo program limits (.more r')) :
    (r'.callers = r.callers ∧ r.current.Moves program r.store r'.current r'.store) ∨
      (∃ (ref : MethodRef) (m : Method), r.current.instruction? = some (.call ref) ∧
        program.findMethod? ref.name = some m ∧ m.parameters.length ≤ r.current.stack.length ∧
        WorksFor m (r.current.awaiting m) r.callers r'.current r'.callers) ∨
      r'.callers.length < r.callers.length := by
  obtain ⟨store, steps, current, callers⟩ := r
  generalize hp : Progress.more r' = p at h
  cases h with
  | limit | fellOff | faulted | callMissing | callShort | callRefused | retEmpty | leaveUnbound =>
    exact .inr (.inr (length_lt_of_raise hr.covering hp.symm))
  | returned | handlerReturned | stray | crashDone => exact .inr (.inr (length_lt_of_resume hp.symm))
  | executed _ hi hcontrol hexec =>
    cases hp
    exact .inl ⟨rfl, .executed hi hcontrol hexec⟩
  | jumped _ hi hl =>
    cases hp
    exact .inl ⟨rfl, .left hi hl⟩
  | callEntered _ hi hm hlength henter =>
    cases hp
    obtain ⟨-, -, regions, -, rfl⟩ := Activation.enter_eq_ok.1 henter
    exact .inr (.inl ⟨_, _, hi, hm, hlength, .callee rfl⟩)
  | left _ _ _ hleaving =>
    -- a jump leaves no regions where there are none
    dsimp only at hleaving
    rw [Activation.leaving, hr.regions] at hleaving
    cases hleaving
  | nextHandler _ _ hpending | jumpDone _ _ hpending =>
    rw [hr.pending] at hpending
    cases hpending

/-- A run that comes back to the depth of another and never was above it is not above it now. -/
theorem LeadsBy.length_le (h : r₁.LeadsBy program limits (r.Inside stop) r')
    (hcallers : r'.callers.length = r.callers.length) : r.callers.length ≤ r₁.callers.length := by
  cases h with
  | refl => exact Nat.le_of_eq hcallers.symm
  | step hinside => exact hinside.1

/-- While a run stays inside a part of a method, its call goes along step by step. -/
theorem LeadsBy.walks (hr : r.current.Unguarded)
    (h : r.LeadsBy program limits (r.Inside stop) r') (hcallers : r'.callers.length = r.callers.length) :
    r.current.Walks program stop r.store r'.current r'.store := by
  -- A run on the way is either in the call itself or in a call that this one waits for.
  have hboth : ∀ r₁ : Run, r₁.LeadsBy program limits (r.Inside stop) r' →
      (r₁.callers = r.callers → r₁.current.Unguarded →
        r₁.current.Walks program stop r₁.store r'.current r'.store) ∧
      ∀ (m : Method) (host : Activation), host.Unguarded →
        WorksFor m host r.callers r₁.current r₁.callers →
        ∃ (value : Option Value) (t : Store), value.toList.length = m.results ∧
          (host.resumed value).Walks program stop t r'.current r'.store := by
    clear h
    intro r₁ h₁
    induction h₁ with
    | refl =>
      refine ⟨fun _ _ => .refl, fun m host _ hworks => ?_⟩
      have := hworks.length_lt
      omega
    | @step r₁ r₂ r' hinside hstep hrest ih =>
      obtain ⟨ihcall, ihcallee⟩ := ih hcallers
      have hle := hrest.length_le hcallers
      have hsteps : r₁.StepsTo program limits (r₁.step program limits) := Run.stepsTo_step r₁
      rw [hstep] at hsteps
      refine ⟨fun hcalls hunguarded => ?_, fun m host hhost hworks => ?_⟩
      · have hpc := hinside.2 (congrArg List.length hcalls)
        rcases hsteps.moves hunguarded with ⟨hcalls', hmoves⟩ |
          ⟨ref, m, hi, hm, hlength, hworks⟩ | hlt
        · exact .step hpc hmoves (ihcall (hcalls'.trans hcalls) (hunguarded.same hmoves.same))
        · rw [hcalls] at hworks
          obtain ⟨value, t, hvalue, hwalks⟩ := ihcallee m (r₁.current.awaiting m)
            ⟨hunguarded.regions, hunguarded.pending⟩ hworks
          exact .step hpc (.called hi hm hlength hvalue) hwalks
        · rw [hcalls] at hlt
          omega
      · rcases hsteps.worksFor hhost.covering hworks with hworks' | ⟨value, hvalue, hcalls, hcurrent⟩ | hlt
        · exact ihcallee m host hhost hworks'
        · refine ⟨value, r₂.store, hvalue, ?_⟩
          rw [← hcurrent]
          refine ihcall hcalls ?_
          rw [hcurrent]
          exact ⟨hhost.regions, hhost.pending⟩
        · omega
  exact (hboth r h).1 rfl hr

end Run

end ManagedC
