import ManagedC.Proofs.Isolation.Runs

/-!
# Step limits

A step compares the number of instructions executed with the limit before it does anything, and nothing
else that the machine does depends on that limit (`Run.step_allow`). A run that does not end with the
fault of the limit ends in the same way under every higher limit (`Progress.Ends.allow`); one that comes
to the limit ends with that fault, whatever handlers run after it (`Progress.Ends.of_limit`), if it ends.
Main statement: this is what the host sees, whether it starts the program or calls a method
(`Session.stepLimit_decides`). Where handlers lead in a circle the fault may not escape
(`Session.stepLimit_circling`).
-/

namespace ManagedC

/-- The same limits, but for the number of instructions. -/
def Limits.allow (limits : Limits) (n : Nat) : Limits := { limits with steps := n }

/-- The session with another limit on the number of instructions. -/
def Session.allow (s : Session) (n : Nat) : Session := { s with limits := s.limits.allow n }

variable {program : Module} {limits : Limits} {n : Nat} {r r' : Run}

/-- A step within both limits is the same under both. -/
theorem Run.step_allow (h : r.steps < limits.steps) (hn : r.steps < n) :
    r.step program (limits.allow n) = r.step program limits := by
  have hn' : ¬(limits.allow n).steps ≤ r.steps := Nat.not_le_of_lt hn
  unfold step
  rw [if_neg (Nat.not_le_of_lt h), if_neg hn']
  rfl

/-- A run that does not end with the fault of the limit ends in the same way under a higher one. -/
theorem Progress.Ends.allow {p : Progress} {o : Ending} (h : p.Ends program limits o)
    (hle : limits.steps ≤ n)
    (ho : ∀ c, o.1 = .error c → c.fault ≠ .stepLimitExceeded limits.steps) :
    p.Ends program (limits.allow n) o := by
  induction h with
  | done => exact .done
  | @more r o hends ih =>
    have hlimit : r.steps < limits.steps := by
      by_contra hover
      obtain ⟨c, hresult, hfault⟩ := (more hends).of_limit r rfl (Nat.le_of_not_lt hover)
      exact ho c hresult hfault
    refine .more ?_
    rw [Run.step_allow hlimit (Nat.lt_of_lt_of_le hlimit hle)]
    exact ih ho

namespace Session

variable {s t : Session} {args : List String} {name : String} {arguments : List Value}

/-! ## Below the limit -/

theorem invoke_allow {m : Method} {result : CallResult} (hm : m ∈ s.program.methods)
    (hle : s.limits.steps ≤ n) (h : s.invoke m arguments = some (result, t))
    (hresult : ∀ c, result = .error c → c.fault ≠ .stepLimitExceeded s.limits.steps) :
    (s.allow n).invoke m arguments = some (result, t.allow n) := by
  have hdepth : (s.allow n).limits.depth = s.limits.depth := rfl
  have hcalls : (s.allow n).store.depth = s.store.depth := rfl
  cases henter : Activation.enter m arguments s.store.depth s.limits.depth with
  | error fault =>
    unfold invoke at h ⊢
    rw [henter] at h
    rw [hdepth, hcalls, henter]
    cases h
    rfl
  | ok a =>
    unfold invoke at h
    rw [henter] at h
    obtain ⟨o, ho, heq⟩ := Option.map_eq_some_iff.1 h
    cases heq
    exact invoke_of_ends (s := s.allow n) hm henter ((Progress.Ends.of_iterate ho).allow hle hresult)

theorem call_allow {result : CallResult} (hle : s.limits.steps ≤ n)
    (h : s.call name arguments = some (result, t))
    (hresult : ∀ c, result = .error c → c.fault ≠ .stepLimitExceeded s.limits.steps) :
    (s.allow n).call name arguments = some (result, t.allow n) := by
  have hprogram : (s.allow n).program = s.program := rfl
  unfold call at h ⊢
  rw [hprogram]
  cases hfind : s.program.findMethod? name with
  | none =>
    rw [hfind] at h
    cases h
    rfl
  | some m =>
    rw [hfind] at h
    exact invoke_allow (Module.mem_of_findMethod? hfind) hle h hresult

theorem exitCode_allow {m : Method} {outcome : Except Failure Int32} (hm : m ∈ s.program.methods)
    (hle : s.limits.steps ≤ n)
    (h : (s.invoke m arguments).map (fun (result, t) => (exitCodeOf m.name result, t)) =
      some (outcome, t))
    (houtcome : ∀ c, outcome = .error (.crash c) → c.fault ≠ .stepLimitExceeded s.limits.steps) :
    ((s.allow n).invoke m arguments).map (fun (result, t) => (exitCodeOf m.name result, t)) =
      some (outcome, t.allow n) := by
  obtain ⟨⟨result, u⟩, hinvoke, heq⟩ := Option.map_eq_some_iff.1 h
  cases heq
  rw [invoke_allow hm hle hinvoke fun c hc => houtcome c (by rw [hc]; rfl)]
  rfl

theorem runEntry_allow {outcome : Except Failure Int32} (hle : s.limits.steps ≤ n)
    (h : s.runEntry args = some (outcome, t))
    (houtcome : ∀ c, outcome = .error (.crash c) → c.fault ≠ .stepLimitExceeded s.limits.steps) :
    (s.allow n).runEntry args = some (outcome, t.allow n) := by
  have hprogram : (s.allow n).program = s.program := rfl
  unfold runEntry at h ⊢
  rw [hprogram]
  cases hentry : s.program.entryMethod? with
  | none =>
    rw [hentry] at h
    cases h
    rfl
  | some entry =>
    rw [hentry] at h
    have hm := Module.mem_of_entryMethod? hentry
    dsimp only at h ⊢
    match hparameters : entry.parameters with
    | [] =>
      rw [hparameters] at h
      exact exitCode_allow hm hle h houtcome
    | [only] =>
      rw [hparameters] at h
      dsimp only at h ⊢
      split at h
      · rename_i htype
        rw [if_pos htype]
        exact exitCode_allow (s := { s with store := (hostArguments args s.store).2 }) hm hle h
          houtcome
      · rename_i htype
        rw [if_neg htype]
        cases h
        rfl
    | _ :: _ :: _ =>
      rw [hparameters] at h
      cases h
      rfl

/-! ## At the limit -/

/-- The answer after the limit: it is the fault of the limit or there is none, and there is one if no
handlers lead in a circle. -/
structure CutOff {α : Type} (s : Session) (fail : Crash → α) (answer : Option (α × Session)) : Prop where
  only : ∀ a t, answer = some (a, t) → ∃ c, a = fail c ∧ c.fault = .stepLimitExceeded s.limits.steps
  escapes : s.program.Escapes →
    ∃ c t, answer = some (fail c, t) ∧ c.fault = .stepLimitExceeded s.limits.steps

theorem CutOff.of_only {α : Type} {fail : Crash → α} {answer : Option (α × Session)}
    (hsome : s.program.Escapes → answer.isSome) (honly : ∀ a t, answer = some (a, t) →
      ∃ c, a = fail c ∧ c.fault = .stepLimitExceeded s.limits.steps) : s.CutOff fail answer where
  only := honly
  escapes hprogram := by
    obtain ⟨⟨a, t⟩, h⟩ := Option.isSome_iff_exists.1 (hsome hprogram)
    obtain ⟨c, rfl, hfault⟩ := honly a t h
    exact ⟨c, t, h, hfault⟩

theorem cutOff_runEntry (hr : s.entryRun? args = some r)
    (hleads : r.Leads s.program s.limits r') (hlimit : s.limits.steps ≤ r'.steps) :
    s.CutOff (fun c => .error (.crash c)) (s.runEntry args) := by
  refine .of_only (fun hprogram => (s.stops.ends hprogram).1 args) fun outcome t h => ?_
  obtain ⟨entry, result, rfl, hends⟩ := ends_of_runEntry hr h
  obtain ⟨c, rfl, hfault⟩ := (hleads.ends_iff.1 hends).of_limit r' rfl hlimit
  exact ⟨c, rfl, hfault⟩

theorem ends_of_call {result : CallResult} (hr : s.callRun? name arguments = some r)
    (h : s.call name arguments = some (result, t)) :
    Progress.Ends s.program s.limits (.more r) (result, t.store, t.steps) := by
  unfold callRun? at hr
  unfold call at h
  obtain ⟨m, hfind, hr⟩ := Option.bind_eq_some_iff.1 hr
  rw [hfind] at h
  have hmap : (s.invoke m arguments).map (fun (result, u) => (id result, u)) = some (result, t) := by
    simpa using h
  obtain ⟨_, rfl, hends⟩ := ends_of_invoke hr hmap
  exact hends

theorem cutOff_call (hr : s.callRun? name arguments = some r)
    (hleads : r.Leads s.program s.limits r') (hlimit : s.limits.steps ≤ r'.steps) :
    s.CutOff .error (s.call name arguments) := by
  refine .of_only (fun hprogram => (s.stops.ends hprogram).2 name arguments) fun result t h => ?_
  exact (hleads.ends_iff.1 (ends_of_call hr h)).of_limit r' rfl hlimit

/-- An answer that is not the fault of the step limit is the answer under every higher limit, and
leaves the same session behind, with the same heap, counts and log. A run that comes to the limit, in
whatever call or handler it is, is answered with that fault and with nothing else; and it is answered
if no handlers of the program lead in a circle. -/
theorem stepLimit_decides (s : Session) (n : Nat) (hle : s.limits.steps ≤ n) :
    (∀ args outcome t, s.runEntry args = some (outcome, t) →
      (∀ c, outcome = .error (.crash c) → c.fault ≠ .stepLimitExceeded s.limits.steps) →
      (s.allow n).runEntry args = some (outcome, t.allow n)) ∧
    (∀ name arguments result t, s.call name arguments = some (result, t) →
      (∀ c, result = .error c → c.fault ≠ .stepLimitExceeded s.limits.steps) →
      (s.allow n).call name arguments = some (result, t.allow n)) ∧
    (∀ args r r', s.entryRun? args = some r → r.Leads s.program s.limits r' →
      s.limits.steps ≤ r'.steps → s.CutOff (fun c => .error (.crash c)) (s.runEntry args)) ∧
    (∀ name arguments r r', s.callRun? name arguments = some r → r.Leads s.program s.limits r' →
      s.limits.steps ≤ r'.steps → s.CutOff .error (s.call name arguments)) :=
  ⟨fun _ _ _ => runEntry_allow hle, fun _ _ _ _ => call_allow hle,
    fun _ _ _ => cutOff_runEntry, fun _ _ _ _ => cutOff_call⟩

/-- The handler of a method that is protected by itself begins again and again after the limit, and the
fault of the limit does not escape. -/
theorem stepLimit_circling : ∃ r, circling.callRun? "circling" [] = some r ∧
    circling.limits.steps ≤ r.steps ∧
    ¬∃ c t, circling.call "circling" [] = some (.error c, t) ∧
      c.fault = .stepLimitExceeded circling.limits.steps := by
  have hnone : circling.call "circling" [] = none :=
    (answers_call "circling").endless.2 ⟨_, rfl, _, .refl, Nat.le_refl 0, _, List.mem_cons_self,
      fun k => Region.not_escapes_circling⟩
  refine ⟨_, rfl, Nat.le_refl 0, ?_⟩
  rintro ⟨c, t, hsome, -⟩
  rw [hnone] at hsome
  cases hsome

end Session

/-- A program with a method that never returns, and one that calls it in a protected body. The handler
of that body would end it otherwise, with an error of its own. -/
def Module.spinning : Module where
  name := "spinning"
  methods := #[
    { Method.declare "main" .int32 .publicStatic with
      body := ⟨#[.constInt32 7, .ret], .empty, []⟩ },
    { Method.declare "spin" .void .publicStatic with
      body := ⟨#[.branch 0], LabelTable.empty.insert 0 0, []⟩ },
    { Method.declare "guard" .void .publicStatic with
      body := {
        instructions := #[.call ⟨"spin", .void, []⟩, .leave 2, .loadNull, .neg, .endFinally, .ret]
        labels := ((LabelTable.empty.insert 0 0).insert 1 2).insert 2 5
        handlers := [⟨0, 1, 1, 2⟩] } }]
  entryPoint := some 0

/-- Its only handler lies behind what it protects. -/
theorem Module.escapes_spinning : Module.spinning.Escapes := by
  refine escapes_of_forward fun m hm => ?_
  simp only [spinning, List.mem_toArray, List.mem_cons, List.not_mem_nil, or_false] at hm
  rcases hm with rfl | rfl | rfl
  · rintro _ ⟨⟩
    nofun
  · rintro _ ⟨⟩
    nofun
  · rintro _ ⟨⟩
    exact List.forall_mem_singleton.2 (Nat.le_refl 2)

/-- With a limit of five instructions its entry point ends, and so it does with nine. The handler is not
what the other method ends with. -/
theorem Session.stepLimit_decides_spinning :
    let s := fresh .spinning { steps := 5, depth := 2 }
    s.runEntry [] = some (.ok 7, { s with steps := 2 }) ∧
      (s.allow 9).runEntry [] = some (.ok 7, ({ s with steps := 2 } : Session).allow 9) ∧
      ∃ c t, s.call "guard" [] = some (.error c, t) ∧ c.fault = .stepLimitExceeded 5 := by
  intro s
  obtain ⟨hentry, -, -, hcall⟩ := stepLimit_decides s 9 (by decide)
  have hrun : s.runEntry [] = some (.ok 7, { s with steps := 2 }) := rfl
  refine ⟨hrun, hentry [] _ _ hrun (by simp), ?_⟩
  exact (hcall "guard" [] _ _ rfl (Run.leads_of_after (n := 5) rfl) (by decide)).escapes
    Module.escapes_spinning

end ManagedC
