import ManagedC.Proofs.Unwinding.Closing
import ManagedC.Proofs.Unwinding.TryFinally

/-!
# Logs of runs

A log lists what a run does to its end: the instructions that are executed, and the incidents that
have to do with errors and handlers. Main statement: an incident in a log belongs to a step of the
machine, at which everything holds that all steps keep (`Progress.Log.step_of`).
-/

namespace ManagedC

/-- Something that happens in a run. -/
inductive LogEntry where
  /-- A call, for which others wait, executes the instruction that it is at. -/
  | executes (callers : List Activation) (a : Activation)
  /-- Something that has to do with errors and handlers. -/
  | incident (e : Incident)

/-- The instruction that is executed in a step, if there is one and the limit is not reached. -/
def Run.executes (limits : Limits) (r : Run) : List LogEntry :=
  if r.steps < limits.steps ∧ r.current.instruction?.isSome = true then
    [.executes r.callers r.current]
  else []

variable {program : Module} {limits : Limits}

/-- What happens in the steps that a run still makes, and what it ends with. -/
inductive Progress.Log (program : Module) (limits : Limits) :
    Progress → List LogEntry → CallResult → Prop where
  | done {result : CallResult} {store : Store} {steps : Nat} :
    Log program limits (.done result store steps) [] result
  /-- A step is made first. -/
  | step {r : Run} {p : Progress} {es : List Incident} {log : List LogEntry} {result : CallResult} :
    r.Shows program limits es p → Log program limits p log result →
    Log program limits (.more r) (r.executes limits ++ (es.map .incident ++ log)) result

/-- The incidents of a step come after the instruction. -/
theorem LogEntry.eq_of_executes {r : Run} {es : List Incident} {before after : List LogEntry}
    {e : Incident} (h : r.executes limits ++ es.map .incident = before ++ .incident e :: after) :
    ∃ front back, es = front ++ e :: back ∧ after = back.map .incident := by
  have hmap : ∀ {front : List LogEntry}, es.map .incident = front ++ .incident e :: after →
      ∃ front back, es = front ++ e :: back ∧ after = back.map .incident := by
    intro front hfront
    obtain ⟨front', back', rfl, -, hback⟩ := List.map_eq_append_iff.1 hfront
    obtain ⟨e', back, rfl, he, rfl⟩ := List.map_eq_cons_iff.1 hback
    cases he
    exact ⟨front', back, rfl, rfl⟩
  unfold Run.executes at h
  split at h
  · cases before with
    | nil => cases h
    | cons first before => exact hmap (List.cons.inj h).2
  · exact hmap h

namespace Progress.Log

variable {p : Progress} {log : List LogEntry} {result : CallResult}

/-- A run that has an ending has a log. -/
theorem exists_of_ends {o : Ending} (h : p.Ends program limits o) :
    ∃ log, Log program limits p log o.1 := by
  induction h with
  | done => exact ⟨[], .done⟩
  | @more r o _ ih =>
    obtain ⟨log, hlog⟩ := ih
    obtain ⟨es, hshows⟩ := (Run.stepsTo_step r).exists_shows
    exact ⟨_, .step hshows hlog⟩

/-- What a run ends with in a log is what it ends with. -/
theorem ends (h : Log program limits p log result) :
    ∃ store steps, p.Ends program limits (result, store, steps) := by
  induction h with
  | done => exact ⟨_, _, .done⟩
  | step hshows _ ih =>
    obtain ⟨store, steps, hends⟩ := ih
    exact ⟨store, steps, .more (by rwa [hshows.stepsTo.step_eq])⟩

/-- At the start of a log an instruction is executed, or the limit is reached. -/
theorem first {r : Run} (h : Log program limits (.more r) log result)
    (hi : r.current.instruction?.isSome = true) :
    (∃ rest, log = .executes r.callers r.current :: rest) ∨
      ∃ c rest, log = .incident (.fault r.callers r.current c) :: rest ∧
        c.fault = .stepLimitExceeded limits.steps := by
  cases h with
  | @step _ _ es log _ hshows _ =>
    by_cases hlimit : r.steps < limits.steps
    · refine .inl ⟨es.map .incident ++ log, ?_⟩
      unfold Run.executes
      rw [if_pos ⟨hlimit, hi⟩]
      rfl
    · have hexecutes : r.executes limits = [] := if_neg fun hand => hlimit hand.1
      rw [hexecutes]
      cases hshows with
      | crashes hcrashes =>
        cases hcrashes with
        | limit => exact .inr ⟨_, _, rfl, rfl⟩
        | fellOff h | faulted h | callMissing h | callShort h | callRefused h | retEmpty h
        | leaveUnbound h => exact absurd h hlimit
      | givesUp hgives =>
        cases hgives with
        | stray h | handlerReturned h => exact absurd h hlimit
      | executed h | called h | returned h | jumped h | left h | nextHandler h | jumpDone h
      | crashDone h => exact absurd h hlimit

/-- An incident in a log is one of a step; what every step keeps holds when that step is made. -/
theorem step_of {I : Run → Prop} (h : Log program limits p log result)
    (hstep : ∀ r es r', I r → r.Shows program limits es (.more r') → I r')
    (hp : ∀ r, p = .more r → I r) {before after : List LogEntry} {e : Incident}
    (hlog : log = before ++ .incident e :: after) : ∃ r q front back rest,
      I r ∧ r.Shows program limits (front ++ e :: back) q ∧ Log program limits q rest result ∧
        after = back.map .incident ++ rest := by
  induction h generalizing before with
  | done => simp at hlog
  | @step r q es rest result hshows hrest ih =>
    have hr := hp r rfl
    have hq : ∀ r', q = .more r' → I r' := by
      rintro r' rfl
      exact hstep r es r' hr hshows
    rw [← List.append_assoc] at hlog
    rcases List.append_eq_append_iff.1 hlog with ⟨skipped, -, hlater⟩ | ⟨tail, hown, hlater⟩
    · exact ih hq hlater
    · cases tail with
      | nil => exact ih hq (show _ = [] ++ _ from hlater.symm)
      | cons first tail =>
        obtain ⟨rfl, rfl⟩ := List.cons.inj hlater
        obtain ⟨front, back, rfl, rfl⟩ := LogEntry.eq_of_executes hown
        exact ⟨r, q, front, back, rest, hr, hshows, hrest, rfl⟩

end Progress.Log

end ManagedC
