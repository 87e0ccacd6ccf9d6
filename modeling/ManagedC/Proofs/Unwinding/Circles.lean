import ManagedC.Proofs.Unwinding.Log

/-!
# Runs that do not end

A call from outside is bounded by the number of instructions that may be executed and by the number of
calls in progress. Once no more instructions may be executed, the handlers around a place still begin,
each one where the one before it crashes, and only a circle of handlers keeps the machine from coming to
an end. Main statements: a call from outside has an answer unless its run comes to such a circle over the limit,
whatever the program is (`Session.stops`), and there are programs for which it does
(`Session.endless_circling`).
-/

namespace ManagedC

namespace LogEntry

/-- Whether an instruction is executed. -/
def isExecution : LogEntry → Bool
  | .executes _ _ => true
  | .incident _ => false

/-- Whether a handler begins. -/
def isBeginning : LogEntry → Bool
  | .incident (.begins _ _) => true
  | _ => false

end LogEntry

/-- The number of handlers of the method with most of them. -/
def Module.mostHandlers (program : Module) : Nat :=
  (program.methods.toList.map fun m => m.body.handlers.length).foldl max 0

/-- In no method of the program do handlers lead in a circle: whichever instruction of it crashes, and
however often its handlers crash at once, the crashes come to an end. -/
def Module.Escapes (program : Module) : Prop :=
  program.Regions fun regions => ∀ pc, ∃ k, Region.Escapes regions pc k

/-- Where handlers lie behind what they protect none lead in a circle. -/
theorem Module.escapes_of_forward {program : Module} (h : ∀ m ∈ program.methods, m.Forward) :
    program.Escapes :=
  fun m hm _ hregions => Region.Escapes.exists_of_forward (h m hm _ hregions)

namespace Session

/-- The run that a call from outside begins, with a store, if the method can be entered. -/
def begin? (s : Session) (store : Store) (m : Method) (arguments : List Value) : Option Run :=
  match Activation.enter m arguments store.depth s.limits.depth with
  | .ok a => some ⟨store.opened, s.steps, a, []⟩
  | .error _ => none

/-- The run that begins when the host calls a method. -/
def callRun? (s : Session) (name : String) (arguments : List Value) : Option Run := do
  s.begin? s.store (← s.program.findMethod? name) arguments

/-- The run that begins when the host starts the program. -/
def entryRun? (s : Session) (args : List String) : Option Run := do
  let entry ← s.program.entryMethod?
  match entry.parameters with
  | [] => s.begin? s.store entry []
  | [only] =>
    if only.type = .array .string then
      s.begin? (hostArguments args s.store).2 entry [(hostArguments args s.store).1]
    else none
  | _ => none

/-- What the answer to the host has to do with the run that its request begins. -/
structure Answers {α : Type} (s : Session) (run? : Option Run) (answer : Option (α × Session)) :
    Prop where
  /-- There is no answer exactly if the run comes to a circle of handlers over the limit. -/
  endless : answer = none ↔ ∃ r, run? = some r ∧ r.IsTrapped s.program s.limits
  /-- No more instructions are executed than are left, whether the run ends or not. -/
  executed : ∀ r r', run? = some r → r.Leads s.program s.limits r' →
    r'.steps ≤ max s.steps s.limits.steps
  /-- The count of instructions goes on from request to request. -/
  counted : ∀ a s', answer = some (a, s') →
    s.steps ≤ s'.steps ∧ s'.steps ≤ max s.steps s.limits.steps
  /-- Where there is an answer the run has a log, with no more instructions than are left. One handler
  at most begins at an instruction, and one for each region of the calls in progress after the limit. -/
  logged : ∀ r a s', run? = some r → answer = some (a, s') →
    ∃ log result, (Progress.more r).Log s.program s.limits log result ∧
      log.countP LogEntry.isExecution ≤ s.limits.steps - s.steps ∧
      log.countP LogEntry.isBeginning ≤
        s.limits.steps - s.steps + s.limits.depth * s.program.mostHandlers

/-- Whatever the host asks of a session is bounded, and it is answered if no handlers lead in a
circle. -/
structure Stops (s : Session) : Prop where
  /-- The program is started. -/
  entry : ∀ args, s.Answers (s.entryRun? args) (s.runEntry args)
  /-- A method is called. -/
  call : ∀ name arguments, s.Answers (s.callRun? name arguments) (s.call name arguments)
  /-- There are no circles. -/
  ends : s.program.Escapes →
    (∀ args, (s.runEntry args).isSome) ∧ ∀ name arguments, (s.call name arguments).isSome

end Session

variable {program : Module} {limits : Limits} {P : List Region → Prop} {n d k m : Nat}
  {a : Activation} {callers : List Activation} {c : Crash} {r : Run} {p : Progress}
  {log : List LogEntry} {result : CallResult}

/-! ## What a log counts -/

namespace Incident

/-- One handler at most begins when a call ends with an error. -/
theorem countP_ended : (ended c callers).countP (fun e => LogEntry.isBeginning (.incident e)) ≤ 1 := by
  induction callers with
  | nil => exact Nat.zero_le 1
  | cons caller callers ih =>
    rw [ended_cons, List.countP_cons_of_neg (by simp [LogEntry.isBeginning]),
      List.countP_cons_of_neg (by simp [LogEntry.isBeginning])]
    cases hcovering : caller.covering with
    | nil => rwa [raised_nil hcovering]
    | cons region rest =>
      rw [raised_cons hcovering]
      exact Nat.le_refl 1

/-- One handler at most begins when an error comes up. -/
theorem countP_raised : (raised c a callers).countP (fun e => LogEntry.isBeginning (.incident e)) ≤ 1 := by
  cases hcovering : a.covering with
  | nil =>
    rw [raised_nil hcovering]
    exact countP_ended
  | cons region rest =>
    rw [raised_cons hcovering]
    exact Nat.le_refl 1

/-- No handler begins in calls where none is to come. -/
theorem countP_raised_le {m : Nat} {a : Activation} {callers : List Activation}
    (h : Escaping (a :: callers) m) :
    (raised c a callers).countP (fun e => LogEntry.isBeginning (.incident e)) ≤ m := by
  cases h with
  | @cons _ _ k n hk hn =>
    cases hk with
    | out hnone =>
      rw [raised_nil hnone, Nat.zero_add]
      cases callers with
      | nil => exact Nat.zero_le n
      | cons caller callers =>
        rw [ended_cons, List.countP_cons_of_neg (by simp [LogEntry.isBeginning]),
          List.countP_cons_of_neg (by simp [LogEntry.isBeginning])]
        exact countP_raised_le hn
    | next hsome =>
      rw [raised_cons hsome]
      exact Nat.le_trans (Nat.le_add_left 1 _) (Nat.le_add_right _ n)
termination_by callers.length

end Incident

namespace Run.Shows

variable {es : List Incident}

/-- One handler at most begins in a step. -/
theorem countP_le (h : r.Shows program limits es p) :
    es.countP (fun e => LogEntry.isBeginning (.incident e)) ≤ 1 := by
  cases h with
  | executed | called | returned | jumped | jumpDone => exact Nat.zero_le 1
  | left | nextHandler => exact Nat.le_refl 1
  | crashes =>
    rw [List.countP_cons_of_neg (by simp [LogEntry.isBeginning])]
    exact Incident.countP_raised
  | givesUp | crashDone =>
    rw [List.countP_cons_of_neg (by simp [LogEntry.isBeginning])]
    exact Incident.countP_ended

/-- After the limit a step is a crash. -/
theorem of_limit (h : r.Shows program limits es p) (hlimit : limits.steps ≤ r.steps) :
    ∃ c, es = .fault r.callers r.current c :: Incident.raised c r.current r.callers := by
  cases h with
  | crashes => exact ⟨_, rfl⟩
  | givesUp hgives =>
    cases hgives with
    | stray h | handlerReturned h => exact absurd h (Nat.not_lt.2 hlimit)
  | executed h | called h | returned h | jumped h | left h | nextHandler h | jumpDone h
  | crashDone h => exact absurd h (Nat.not_lt.2 hlimit)

end Run.Shows

namespace Progress.Log

/-- In the entries of one step there is an instruction only if it is counted. -/
theorem countP_execution (es : List Incident) (log : List LogEntry) :
    (r.executes limits ++ (es.map LogEntry.incident ++ log)).countP LogEntry.isExecution =
      (if r.steps < limits.steps ∧ r.current.instruction?.isSome = true then 1 else 0) +
        log.countP LogEntry.isExecution := by
  have hincidents : (es.map LogEntry.incident).countP LogEntry.isExecution = 0 := by
    simp [List.countP_map, LogEntry.isExecution, Function.comp_def]
  rw [List.countP_append, List.countP_append, hincidents, Nat.zero_add]
  unfold Run.executes
  split <;> rfl

/-- The handlers that begin in one step are among its incidents. -/
theorem countP_beginning (es : List Incident) (log : List LogEntry) :
    (r.executes limits ++ (es.map LogEntry.incident ++ log)).countP LogEntry.isBeginning =
      es.countP (fun e => LogEntry.isBeginning (.incident e)) + log.countP LogEntry.isBeginning := by
  have hexecutes : (r.executes limits).countP LogEntry.isBeginning = 0 := by
    unfold Run.executes
    split <;> rfl
  rw [List.countP_append, List.countP_append, hexecutes, Nat.zero_add, List.countP_map]
  rfl

/-- No more instructions are executed than are left. -/
theorem executions_le (h : p.Log program limits log result) :
    log.countP LogEntry.isExecution ≤ limits.steps - p.steps := by
  induction h with
  | done => exact Nat.zero_le _
  | @step r p es log result hshows _ ih =>
    rw [countP_execution]
    have hsteps : (Progress.more r).steps = r.steps := rfl
    rcases hshows.stepsTo.steps_eq with ⟨hlt, heq⟩ | ⟨hle, heq⟩
    · split <;> omega
    · rw [if_neg fun hand => absurd hand.1 (Nat.not_lt.2 hle)]
      omega

/-- After the limit no more handlers begin than are to come. -/
theorem beginnings_le_of_limit (h : p.Log program limits log result) :
    ∀ r m, p = .more r → limits.steps ≤ r.steps → Escaping (r.current :: r.callers) m →
      log.countP LogEntry.isBeginning ≤ m := by
  induction h with
  | done => rintro r m ⟨⟩
  | @step r p es log result hshows hlog ih =>
    rintro _ m ⟨⟩ hlimit hm
    obtain ⟨c, rfl⟩ := hshows.of_limit hlimit
    rw [countP_beginning, List.countP_cons_of_neg (by simp [LogEntry.isBeginning])]
    have hraise : r.step program limits = _ := Run.step_of_limit hlimit
    rw [hshows.stepsTo.step_eq] at hraise
    cases p with
    | done =>
      cases hlog
      exact Incident.countP_raised_le hm
    | more r' =>
      obtain ⟨j, hj, hescaping⟩ := Run.raise_escaping hm hraise.symm
      have hsteps := congrArg Progress.steps hraise
      rw [Run.steps_raise] at hsteps
      have hrest := ih r' j rfl (Nat.le_trans hlimit (Nat.le_of_eq hsteps.symm)) hescaping
      have hone := @Incident.countP_raised r.current r.callers c
      omega

/-- One handler at most begins at an instruction, and after the limit one for each region. -/
theorem beginnings_le {base : Nat} (hprogram : program.Regions (·.length ≤ n))
    (h : p.Log program limits log result) :
    ∀ r, p = .more r → r.Bounded (·.length ≤ n) limits.depth → r.Counts base →
      log.countP LogEntry.isBeginning ≤ limits.steps - r.steps + limits.depth * n := by
  induction h with
  | done => rintro r ⟨⟩
  | @step r p es log result hshows hlog ih =>
    rintro _ ⟨⟩ hr hcounts
    by_cases hlimit : limits.steps ≤ r.steps
    · have hlog' := Progress.Log.step hshows hlog
      obtain ⟨store, steps, hends⟩ := hlog'.ends
      obtain ⟨m, hm⟩ := Run.escaping_of_ends hends r rfl hlimit
      have hbegun := beginnings_le_of_limit hlog' r m rfl hlimit hm
      have hle := hm.le hr.regions
      have hdepth := Nat.mul_le_mul_right n hr.depth
      rw [List.length_cons] at hle
      omega
    · rw [countP_beginning]
      have hone := hshows.countP_le
      cases p with
      | done =>
        cases hlog
        simp only [List.countP_nil]
        omega
      | more r' =>
        have hrest := ih r' rfl (hr.step hcounts hprogram hshows.stepsTo)
          (hshows.stepsTo.counts hcounts)
        rcases hshows.stepsTo.steps_eq with ⟨-, heq⟩ | ⟨hle, -⟩
        · have hsteps : (Progress.more r').steps = r'.steps := rfl
          omega
        · exact absurd hle hlimit

end Progress.Log

/-! ## Requests -/

namespace Run

/-- The count of instructions stays below the limit, or where it was. -/
theorem steps_of_leads {r r' : Run} (h : r.Leads program limits r') :
    r.steps ≤ r'.steps ∧ r'.steps ≤ max r.steps limits.steps := by
  refine h.keeps (Q := fun r' => r.steps ≤ r'.steps ∧ r'.steps ≤ max r.steps limits.steps)
    (fun r₁ r₂ _ hr hstep => ?_) ⟨Nat.le_refl _, Nat.le_max_left _ _⟩
  have hsteps : (Progress.more r₂).steps = r₂.steps := rfl
  rcases hstep.steps_eq with ⟨hlt, heq⟩ | ⟨hle, heq⟩ <;> omega

/-- So it does in the end. -/
theorem steps_of_ends {p : Progress} {o : Ending} (h : p.Ends program limits o) :
    p.steps ≤ o.2.2 ∧ o.2.2 ≤ max p.steps limits.steps := by
  induction h with
  | done => exact ⟨Nat.le_refl _, Nat.le_max_left _ _⟩
  | @more r o _ ih =>
    have hsteps : (Progress.more r).steps = r.steps := rfl
    have hstep : r.StepsTo program limits _ := stepsTo_step r
    rcases hstep.steps_eq with ⟨hlt, heq⟩ | ⟨hle, heq⟩ <;> omega

end Run

namespace Session

variable {s : Session} {store : Store} {arguments : List Value}

/-- A request that does not begin a run is answered at once. -/
theorem answers_none {α : Type} {a : α} : s.Answers none (some (a, s)) where
  endless := by simp
  executed := by simp
  counted := by
    rintro _ _ ⟨⟩
    exact ⟨Nat.le_refl _, Nat.le_max_left _ _⟩
  logged := by simp

/-- A call of a method of the program from outside. -/
theorem answers_invoke {α : Type} {m : Method} (hm : m ∈ s.program.methods) (f : CallResult → α) :
    s.Answers (s.begin? store m arguments)
      ((({ s with store := store } : Session).invoke m arguments).map
        fun (result, s') => (f result, s')) := by
  unfold begin? invoke
  dsimp only
  cases henter : Activation.enter m arguments store.depth s.limits.depth with
  | error fault =>
    refine ⟨by simp, by simp, ?_, by simp⟩
    rintro _ _ ⟨⟩
    exact ⟨Nat.le_refl _, Nat.le_max_left _ _⟩
  | ok a =>
    dsimp only
    have hfuel := @Run.iterate_fuel_isSome_or s.program s.limits a m arguments store s.steps hm henter
    cases hend : (⟨store.opened, s.steps, a, []⟩ : Run).iterate s.program s.limits
      (Run.fuel s.program s.limits) with
    | none =>
      rw [hend] at hfuel
      have htrapped := hfuel.resolve_left (by simp)
      refine ⟨by simpa using htrapped, ?_, by simp, by simp⟩
      rintro r r' ⟨⟩ hleads
      exact (Run.steps_of_leads hleads).2
    | some o =>
      have hends := Progress.Ends.of_iterate hend
      refine ⟨?_, ?_, ?_, ?_⟩
      · simpa using fun htrapped : Run.IsTrapped _ _ _ => htrapped.not_ends hends
      · rintro r r' ⟨⟩ hleads
        exact (Run.steps_of_leads hleads).2
      · rintro _ _ ⟨⟩
        exact Run.steps_of_ends hends
      · rintro r _ _ ⟨⟩ -
        obtain ⟨log, hlog⟩ := Progress.Log.exists_of_ends hends
        exact ⟨log, o.1, hlog, hlog.executions_le, hlog.beginnings_le Run.regions_length_le _ rfl
          (Run.bounded_enter Run.regions_length_le hm henter) (Run.counts_enter a store s.steps)⟩

theorem answers_call (name : String) : s.Answers (s.callRun? name arguments) (s.call name arguments) := by
  unfold callRun? call
  cases hfind : s.program.findMethod? name with
  | none => exact answers_none
  | some m =>
    have h := @answers_invoke s s.store arguments _ m (Module.mem_of_findMethod? hfind) id
    simpa using h

/-- The program cannot be started, or its entry point is called with what the host has for it. -/
theorem runEntry_cases (s : Session) (args : List String) :
    (s.entryRun? args = none ∧ ∃ failure, s.runEntry args = some (.error failure, s)) ∨
      ∃ entry ∈ s.program.methods, ∃ store arguments,
        (store = s.store ∨ store = (hostArguments args s.store).2) ∧
        s.entryRun? args = s.begin? store entry arguments ∧
        s.runEntry args = (({ s with store := store } : Session).invoke entry arguments).map
          fun (result, t) => (exitCodeOf entry.name result, t) := by
  unfold entryRun? runEntry
  cases hentry : s.program.entryMethod? with
  | none => exact .inl ⟨rfl, _, rfl⟩
  | some entry =>
    have hm := Module.mem_of_entryMethod? hentry
    dsimp only [Option.bind_eq_bind, Option.bind_some]
    match entry.parameters with
    | [] => exact .inr ⟨entry, hm, s.store, [], .inl rfl, rfl, rfl⟩
    | [only] =>
      dsimp only
      split
      · exact .inr ⟨entry, hm, _, _, .inr rfl, rfl, rfl⟩
      · exact .inl ⟨rfl, _, rfl⟩
    | _ :: _ :: _ => exact .inl ⟨rfl, _, rfl⟩

theorem answers_entry (args : List String) : s.Answers (s.entryRun? args) (s.runEntry args) := by
  rcases runEntry_cases s args with ⟨hrun, failure, hanswer⟩ |
    ⟨entry, hm, store, arguments, -, hrun, hanswer⟩
  · rw [hrun, hanswer]
    exact answers_none
  · rw [hrun, hanswer]
    exact answers_invoke hm _

/-- No run comes to a circle of handlers if there is none. -/
theorem not_isTrapped {m : Method} (hprogram : s.program.Escapes) (hm : m ∈ s.program.methods)
    (hr : s.begin? store m arguments = some r) : ¬r.IsTrapped s.program s.limits := by
  rintro ⟨r', hleads, -, b, hb, hcircle⟩
  unfold begin? at hr
  split at hr
  · rename_i henter
    cases hr
    have hstart := @Run.bounded_enter _ _ _ _ m arguments store s.steps hprogram hm henter
    have hr' := hstart.leads (Run.counts_enter _ store s.steps) hprogram hleads
    obtain ⟨k, hk⟩ := hr'.regions b hb b.pc
    exact hcircle k hk
  · cases hr

/-- A run that a request begins is one of a method of the program. -/
theorem exists_begin_of_entryRun {args : List String} (h : s.entryRun? args = some r) :
    ∃ store, ∃ m ∈ s.program.methods, ∃ arguments, s.begin? store m arguments = some r := by
  rcases runEntry_cases s args with ⟨hrun, -⟩ | ⟨entry, hm, store, arguments, -, hrun, -⟩
  · rw [hrun] at h
    cases h
  · exact ⟨store, entry, hm, arguments, hrun.symm.trans h⟩

/-- A session stops within its limits, unless handlers that lead in a circle keep it from doing so. -/
theorem stops (s : Session) : s.Stops := by
  refine ⟨answers_entry, fun name arguments => answers_call name, fun hprogram => ⟨fun args => ?_,
    fun name arguments => ?_⟩⟩
  · refine Option.isSome_iff_ne_none.2 fun hnone => ?_
    obtain ⟨r, hr, htrapped⟩ := (answers_entry args).endless.1 hnone
    obtain ⟨store, m, hm, arguments, hbegin⟩ := exists_begin_of_entryRun hr
    exact not_isTrapped hprogram hm hbegin htrapped
  · refine Option.isSome_iff_ne_none.2 fun hnone => ?_
    obtain ⟨r, hr, htrapped⟩ := (answers_call name).endless.1 hnone
    obtain ⟨m, hfind, hbegin⟩ := Option.bind_eq_some_iff.1 hr
    exact not_isTrapped hprogram (Module.mem_of_findMethod? hfind) hbegin htrapped

end Session

/-! ## A circle -/

/-- A method whose only instruction is protected by itself. -/
def Method.circling : Method :=
  { Method.declare "circling" .void .publicStatic with
    body := ⟨#[.endFinally], (LabelTable.empty.insert 0 0).insert 1 1, [⟨0, 1, 0, 1⟩]⟩ }

/-- A session with that method that may not execute an instruction. -/
def Session.circling : Session :=
  { program := { name := "circling", methods := #[.circling] }, limits := { steps := 0 } }

/-- Its handler leads to itself. -/
theorem Region.not_escapes_circling : ¬Region.Escapes [⟨0, 1, 0, 1⟩] 0 k := by
  intro h
  induction k with
  | zero => cases h with | out hnone => cases hnone
  | succ k ih =>
    cases h with
    | next hsome h =>
      cases hsome
      exact ih h

/-- A call of it has no answer. -/
theorem Session.endless_circling : Session.circling.call "circling" [] = none := by
  refine (Session.answers_call "circling").endless.2 ⟨_, rfl, _, .refl, Nat.le_refl 0, _,
    List.mem_cons_self, fun k => Region.not_escapes_circling⟩

end ManagedC
