import ManagedC.Proofs.Run.Depth

/-!
# When runs end

The instructions of a run are limited. After the limit a call crashes at every step: the handler of
the first region around the place begins, and crashes at its first instruction; where there is no such
region the call ends. A place escapes if crashes from it on come to an end (`Region.Escapes`). Main
statements: a run over the limit ends exactly if all its calls escape (`Run.ends_iff_of_limit`), every
run ends or comes to one over the limit that does not (`Run.iterate_isSome_or`), `Run.fuel` is enough
for every run that ends (`Run.iterate_of_ends`), and in a program whose handlers lie behind what they
protect all runs end (`Run.exists_ends`). A call from outside is answered as its run ends
(`Session.invoke_of_ends`).
-/

namespace ManagedC

/-- Crashes that follow each other from an instruction on come to an end after so many handlers have
begun. Every handler crashes at its first instruction. -/
inductive Region.Escapes (regions : List Region) : Nat → Nat → Prop where
  /-- No region protects the instruction. -/
  | out {pc : Nat} : regions.filter (·.protects pc) = [] → Escapes regions pc 0
  /-- The handler of the first region around the instruction begins. -/
  | next {pc k : Nat} {g : Region} {rest : List Region} :
    regions.filter (·.protects pc) = g :: rest → Escapes regions g.handlerStart k →
    Escapes regions pc (k + 1)

/-- The places of all calls escape, after so many handlers in total. -/
inductive Escaping : List Activation → Nat → Prop where
  | nil : Escaping [] 0
  | cons {a : Activation} {callers : List Activation} {k n : Nat} :
    Region.Escapes a.regions a.pc k → Escaping callers n → Escaping (a :: callers) (k + n)

/-- The run is over the limit, and from the place of one of its calls the handlers lead in a circle. -/
structure Run.Trapped (limits : Limits) (r : Run) : Prop where
  limit : limits.steps ≤ r.steps
  /-- Crashes in one of the calls do not come to an end. -/
  circle : ∃ a ∈ r.current :: r.callers, ∀ k, ¬Region.Escapes a.regions a.pc k

/-- There are at most `d` calls in progress, and a property holds of the regions of each. -/
structure Run.Bounded (P : List Region → Prop) (d : Nat) (r : Run) : Prop where
  /-- There are not more calls. -/
  depth : r.callers.length + 1 ≤ d
  /-- The property holds of the regions. -/
  regions : ∀ a ∈ r.current :: r.callers, P a.regions

/-- The property holds of the regions of every method. -/
def Module.Regions (P : List Region → Prop) (program : Module) : Prop :=
  ∀ m ∈ program.methods, ∀ regions, m.body.handlers.mapM m.body.region? = some regions → P regions

/-- The handlers of the method lie behind what they protect. -/
def Method.Forward (m : Method) : Prop :=
  ∀ regions, m.body.handlers.mapM m.body.region? = some regions →
    ∀ region ∈ regions, region.tryEnd ≤ region.handlerStart

/-- How many instructions have been executed. -/
def Progress.steps : Progress → Nat
  | .more r => r.steps
  | .done _ _ steps => steps

variable {program : Module} {limits : Limits} {P : List Region → Prop} {n d k m : Nat}
  {a b : Activation} {r : Run}

/-! ## Chains of handlers -/

namespace Region.Escapes

variable {regions : List Region} {pc : Nat}

/-- From a place on, the number of handlers is settled. -/
theorem unique (h : Escapes regions pc k) (h' : Escapes regions pc m) : k = m := by
  induction h generalizing m with
  | out hnone =>
    cases h' with
    | out => rfl
    | next hsome =>
      rw [hnone] at hsome
      cases hsome
  | next hsome _ ih =>
    cases h' with
    | out hnone =>
      rw [hnone] at hsome
      cases hsome
    | next hsome' h' =>
      rw [hsome] at hsome'
      cases hsome'
      rw [ih h']

/-- The handlers of a chain are different: from each one on there are fewer to come. -/
theorem exists_starts (h : Escapes regions pc k) : ∃ starts : List Nat, starts.length = k ∧
    starts.Nodup ∧ starts ⊆ regions.map (·.handlerStart) ∧
      ∀ start ∈ starts, ∃ j < k, Escapes regions start j := by
  induction h with
  | out => exact ⟨[], rfl, List.nodup_nil, List.nil_subset _, by simp⟩
  | @next pc k g rest hsome h ih =>
    obtain ⟨starts, hlength, hnodup, hsubset, hlater⟩ := ih
    have hmem : g ∈ regions.filter (·.protects pc) := hsome ▸ List.mem_cons_self
    refine ⟨g.handlerStart :: starts, by rw [List.length_cons, hlength], ?_, ?_, ?_⟩
    · refine List.nodup_cons.2 ⟨fun hstart => ?_, hnodup⟩
      obtain ⟨j, hj, h'⟩ := hlater _ hstart
      exact absurd (h.unique h') (Nat.ne_of_gt hj)
    · exact List.cons_subset.2 ⟨List.mem_map_of_mem (List.mem_filter.1 hmem).1, hsubset⟩
    · refine List.forall_mem_cons.2 ⟨⟨k, Nat.lt_succ_self k, h⟩, fun start hstart => ?_⟩
      obtain ⟨j, hj, h'⟩ := hlater start hstart
      exact ⟨j, Nat.lt_succ_of_lt hj, h'⟩

/-- No handler comes twice in a chain that ends. -/
theorem le_length (h : Escapes regions pc k) : k ≤ regions.length := by
  obtain ⟨starts, rfl, hnodup, hsubset, -⟩ := h.exists_starts
  simpa using (hnodup.subperm hsubset).length_le

/-- Handlers that lie behind what they protect lead further and further. -/
theorem of_forward (h : ∀ g ∈ regions, g.tryEnd ≤ g.handlerStart)
    (hn : ∀ g ∈ regions, g.handlerStart ≤ pc + n) : ∃ k, Escapes regions pc k := by
  induction n generalizing pc with
  | zero =>
    refine ⟨0, .out (List.filter_eq_nil_iff.2 fun g hg hprotects => ?_)⟩
    have hstart := hn g hg
    have hend := h g hg
    simp only [protects, Bool.and_eq_true, decide_eq_true_eq] at hprotects
    omega
  | succ n ih =>
    cases hcovering : regions.filter (·.protects pc) with
    | nil => exact ⟨0, .out hcovering⟩
    | cons g rest =>
      have hmem : g ∈ regions.filter (·.protects pc) := hcovering ▸ List.mem_cons_self
      obtain ⟨hg, hprotects⟩ := List.mem_filter.1 hmem
      have hend := h g hg
      simp only [protects, Bool.and_eq_true, decide_eq_true_eq] at hprotects
      obtain ⟨k, hk⟩ := @ih g.handlerStart fun g' hg' => by
        have hstart := hn g' hg'
        omega
      exact ⟨k + 1, .next hcovering hk⟩

/-- So crashes come to an end, wherever the first one is. -/
theorem exists_of_forward (h : ∀ g ∈ regions, g.tryEnd ≤ g.handlerStart) (pc : Nat) :
    ∃ k, Escapes regions pc k := by
  refine of_forward (n := (regions.map (·.handlerStart)).sum) h fun g hg => ?_
  have hle := List.le_sum_of_mem (List.mem_map_of_mem (f := (·.handlerStart)) hg)
  omega

end Region.Escapes

namespace Escaping

variable {frames : List Activation}

theorem of_forall (h : ∀ a ∈ frames, ∃ k, Region.Escapes a.regions a.pc k) :
    ∃ n, Escaping frames n := by
  induction frames with
  | nil => exact ⟨0, .nil⟩
  | cons a frames ih =>
    obtain ⟨⟨k, hk⟩, hrest⟩ := List.forall_mem_cons.1 h
    obtain ⟨n, hn⟩ := ih hrest
    exact ⟨k + n, .cons hk hn⟩

theorem escapes (h : Escaping frames m) : ∀ a ∈ frames, ∃ k, Region.Escapes a.regions a.pc k := by
  induction h with
  | nil => simp
  | cons hk _ ih => exact List.forall_mem_cons.2 ⟨⟨_, hk⟩, ih⟩

/-- Every call begins each of its handlers once at most. -/
theorem le (h : Escaping frames m) (hn : ∀ a ∈ frames, a.regions.length ≤ n) :
    m ≤ frames.length * n := by
  induction h with
  | nil => exact Nat.zero_le _
  | cons hk _ ih =>
    obtain ⟨ha, hrest⟩ := List.forall_mem_cons.1 hn
    have hfirst := hk.le_length
    have hothers := ih hrest
    rw [List.length_cons, Nat.add_mul]
    omega

end Escaping

namespace Run

/-! ## Steps are counted -/

theorem steps_raise {store : Store} {steps : Nat} {c : Crash} {a : Activation}
    {callers : List Activation} : (raise store steps c a callers).steps = steps := by
  rcases raise_cases store steps c a callers with ⟨r, hmore, hsteps⟩ | ⟨t, hdone⟩
  · rw [hmore]
    exact hsteps
  · rw [hdone]
    rfl

theorem steps_resume {callers : List Activation} {result : CallResult} {store : Store} {steps : Nat} :
    (resume callers result store steps).steps = steps := by
  cases callers with
  | nil => rfl
  | cons caller callers =>
    match result with
    | .error c => exact steps_raise
    | .ok none | .ok (some v) => rfl

/-- A step is counted unless the limit is reached. -/
theorem StepsTo.steps_eq {p : Progress} (h : r.StepsTo program limits p) :
    r.steps < limits.steps ∧ p.steps = r.steps + 1 ∨
      limits.steps ≤ r.steps ∧ p.steps = r.steps := by
  cases h with
  | limit hlimit => exact .inr ⟨hlimit, steps_raise⟩
  | fellOff hlimit | faulted hlimit | callMissing hlimit | callShort hlimit | callRefused hlimit
  | retEmpty hlimit | leaveUnbound hlimit => exact .inl ⟨hlimit, steps_raise⟩
  | returned hlimit | handlerReturned hlimit | stray hlimit | crashDone hlimit =>
    exact .inl ⟨hlimit, steps_resume⟩
  | executed hlimit | jumped hlimit | left hlimit | nextHandler hlimit | jumpDone hlimit
  | callEntered hlimit => exact .inl ⟨hlimit, rfl⟩

/-! ## Calls and regions are bounded -/

theorem bounded_raise {store : Store} {steps : Nat} {c : Crash} {a : Activation}
    {callers : List Activation} (hdepth : callers.length + 1 ≤ d)
    (hregions : ∀ b ∈ a :: callers, P b.regions)
    (h : raise store steps c a callers = .more r) : r.Bounded P d := by
  obtain ⟨ha, hcallers⟩ := List.forall_mem_cons.1 hregions
  cases hcovering : a.covering with
  | cons region rest =>
    rw [raise_of_covering_cons hcovering] at h
    cases h
    exact ⟨hdepth, List.forall_mem_cons.2 ⟨ha, hcallers⟩⟩
  | nil =>
    rw [raise_of_covering_nil hcovering] at h
    cases callers with
    | nil => cases h
    | cons caller callers => exact bounded_raise (Nat.le_of_succ_le hdepth) hcallers h
termination_by callers.length

theorem bounded_resume {callers : List Activation} {result : CallResult} {store : Store}
    {steps : Nat} (hdepth : callers.length ≤ d) (hregions : ∀ b ∈ callers, P b.regions)
    (h : resume callers result store steps = .more r) : r.Bounded P d := by
  cases callers with
  | nil => cases h
  | cons caller callers =>
    obtain ⟨hcaller, hrest⟩ := List.forall_mem_cons.1 hregions
    match result, h with
    | .error c, h => exact bounded_raise hdepth hregions h
    | .ok none, h | .ok (some v), h =>
      cases h
      exact ⟨hdepth, List.forall_mem_cons.2 ⟨hcaller, hrest⟩⟩

/-- A step leaves the calls bounded: a call begins only if the counter, which is right, allows it. -/
theorem Bounded.step {r r' : Run} {base : Nat} (hr : r.Bounded P limits.depth) (hcounts : r.Counts base)
    (hprogram : program.Regions P) (h : r.StepsTo program limits (.more r')) :
    r'.Bounded P limits.depth := by
  obtain ⟨s, steps, a, callers⟩ := r
  obtain ⟨hdepth, hregions⟩ := hr
  dsimp only at hdepth hregions
  obtain ⟨ha, hcallers⟩ := List.forall_mem_cons.1 hregions
  generalize hp : Progress.more r' = p at h
  cases h with
  | limit | fellOff | faulted | callMissing | callShort | callRefused | retEmpty | leaveUnbound =>
    exact bounded_raise hdepth hregions hp.symm
  | returned | handlerReturned | stray | crashDone =>
    exact bounded_resume (Nat.le_of_succ_le hdepth) hcallers hp.symm
  | executed _ _ _ hexec =>
    cases hp
    exact ⟨hdepth, List.forall_mem_cons.2 ⟨hexec.same.regions ▸ ha, hcallers⟩⟩
  | jumped | left | nextHandler | jumpDone =>
    cases hp
    exact ⟨hdepth, List.forall_mem_cons.2 ⟨ha, hcallers⟩⟩
  | callEntered _ _ hm _ henter =>
    cases hp
    obtain ⟨-, hlt, regions, hbound, rfl⟩ := Activation.enter_eq_ok.1 henter
    have hcount : s.depth = base + callers.length + 1 := hcounts
    have hlt : s.depth < limits.depth := hlt
    refine ⟨?_, List.forall_mem_cons.2 ⟨hprogram _ (Module.mem_of_findMethod? hm) _ hbound,
      List.forall_mem_cons.2 ⟨ha, hcallers⟩⟩⟩
    show callers.length + 1 + 1 ≤ limits.depth
    omega

theorem Bounded.leads {r' : Run} {base : Nat} (hr : r.Bounded P limits.depth) (hcounts : r.Counts base)
    (hprogram : program.Regions P) (h : r.Leads program limits r') : r'.Bounded P limits.depth := by
  have hboth : r'.Bounded P limits.depth ∧ r'.Counts base :=
    h.keeps (Q := fun r => r.Bounded P limits.depth ∧ r.Counts base)
      (fun _ _ _ hr hstep => ⟨hr.1.step hr.2 hprogram hstep, hstep.counts hr.2⟩) ⟨hr, hcounts⟩
  exact hboth.1

/-- A run that a call from outside begins is bounded. -/
theorem bounded_enter {m : Method} {arguments : List Value} {store : Store} {steps : Nat}
    (hprogram : program.Regions P) (hm : m ∈ program.methods)
    (h : Activation.enter m arguments store.depth limits.depth = .ok a) :
    Bounded P limits.depth ⟨store.opened, steps, a, []⟩ := by
  obtain ⟨-, hdepth, regions, hregions, rfl⟩ := Activation.enter_eq_ok.1 h
  exact ⟨Nat.succ_le_of_lt (Nat.zero_lt_of_lt hdepth),
    List.forall_mem_singleton.2 (hprogram m hm regions hregions)⟩

/-! ## After the limit -/

/-- A crash in escaping calls ends them all, or begins one of the handlers that are to come. -/
theorem raise_escaping {m : Nat} {store : Store} {steps : Nat} {c : Crash} {a : Activation}
    {callers : List Activation} {r : Run} (h : Escaping (a :: callers) m)
    (hraise : raise store steps c a callers = .more r) :
    ∃ j < m, Escaping (r.current :: r.callers) j := by
  cases h with
  | @cons _ _ k n hk hn =>
    cases hk with
    | out hnone =>
      rw [raise_of_covering_nil hnone] at hraise
      cases callers with
      | nil => cases hraise
      | cons caller callers =>
        rw [Nat.zero_add]
        exact raise_escaping hn hraise
    | next hsome hk =>
      rw [raise_of_covering_cons hsome] at hraise
      cases hraise
      exact ⟨_, by omega, .cons hk hn⟩
termination_by callers.length

/-- Calls escape if they do after the crash. -/
theorem escaping_of_raise {store : Store} {steps : Nat} {c : Crash} {a : Activation}
    {callers : List Activation} (h : ∀ r, raise store steps c a callers = .more r →
      ∃ m, Escaping (r.current :: r.callers) m) : ∃ m, Escaping (a :: callers) m := by
  cases hcovering : a.covering with
  | cons region rest =>
    rw [raise_of_covering_cons hcovering] at h
    obtain ⟨m, hm⟩ := h _ rfl
    cases hm with
    | cons hk hn => exact ⟨_, .cons (.next hcovering hk) hn⟩
  | nil =>
    rw [raise_of_covering_nil hcovering] at h
    cases callers with
    | nil => exact ⟨_, .cons (.out hcovering) .nil⟩
    | cons caller callers =>
      obtain ⟨m, hm⟩ := escaping_of_raise h
      exact ⟨_, .cons (.out hcovering) hm⟩
termination_by callers.length

/-- A run over the limit ends within as many steps as handlers are to come, and one. -/
theorem iterate_isSome_of_escaping {fuel : Nat} (hlimit : limits.steps ≤ r.steps)
    (h : Escaping (r.current :: r.callers) m) (hfuel : m < fuel) :
    (r.iterate program limits fuel).isSome := by
  induction fuel generalizing r m with
  | zero => omega
  | succ fuel ih =>
    rw [iterate, step_of_limit hlimit]
    cases hraise : raise r.store r.steps (r.current.crash (.stepLimitExceeded limits.steps)) r.current
      r.callers with
    | done => rfl
    | more r' =>
      obtain ⟨j, hj, h'⟩ := raise_escaping h hraise
      have hsteps := congrArg Progress.steps hraise
      rw [steps_raise] at hsteps
      exact ih (Nat.le_trans hlimit (Nat.le_of_eq hsteps)) h' (by omega)

/-- The calls of a run over the limit that ends escape. -/
theorem escaping_of_ends {p : Progress} {o : Ending} (h : p.Ends program limits o) :
    ∀ r, p = .more r → limits.steps ≤ r.steps → ∃ m, Escaping (r.current :: r.callers) m := by
  induction h with
  | done => rintro r ⟨⟩
  | more _ ih =>
    rintro r ⟨⟩ hlimit
    rw [step_of_limit hlimit] at ih
    refine escaping_of_raise fun r' hr' => ih r' hr' ?_
    have hsteps := congrArg Progress.steps hr'
    rw [steps_raise] at hsteps
    exact Nat.le_trans hlimit (Nat.le_of_eq hsteps)

/-- A run over the limit ends exactly if it is not trapped. -/
theorem ends_iff_of_limit (hlimit : limits.steps ≤ r.steps) :
    (∃ o, Progress.Ends program limits (.more r) o) ↔ ¬r.Trapped limits := by
  constructor
  · rintro ⟨o, ho⟩ ⟨-, a, ha, hcircle⟩
    obtain ⟨m, hm⟩ := escaping_of_ends ho r rfl hlimit
    obtain ⟨k, hk⟩ := hm.escapes a ha
    exact hcircle k hk
  · intro hfree
    have hescapes : ∀ a ∈ r.current :: r.callers, ∃ k, Region.Escapes a.regions a.pc k := by
      intro a ha
      by_contra hcircle
      exact hfree ⟨hlimit, a, ha, not_exists.1 hcircle⟩
    obtain ⟨m, hm⟩ := Escaping.of_forall hescapes
    have hsome : (r.iterate program limits (m + 1)).isSome :=
      iterate_isSome_of_escaping hlimit hm (Nat.lt_succ_self m)
    obtain ⟨o, ho⟩ := Option.isSome_iff_exists.1 hsome
    exact ⟨o, .of_iterate ho⟩

/-! ## Before the limit -/

/-- The run comes to one that is trapped. -/
def IsTrapped (program : Module) (limits : Limits) (r : Run) : Prop :=
  ∃ r', r.Leads program limits r' ∧ r'.Trapped limits

/-- A run does not end if it comes to one that is trapped. -/
theorem IsTrapped.not_ends {o : Ending} (h : r.IsTrapped program limits) :
    ¬Progress.Ends program limits (.more r) o := by
  obtain ⟨r', hleads, htrapped⟩ := h
  intro ho
  exact (ends_iff_of_limit htrapped.limit).1 ⟨o, hleads.ends_iff.1 ho⟩ htrapped

/-- A bounded run comes to one that is trapped, or ends before its fuel does. -/
theorem iterate_isSome_or {fuel base : Nat} (hprogram : program.Regions (·.length ≤ n))
    (hr : r.Bounded (·.length ≤ n) limits.depth) (hcounts : r.Counts base)
    (hfuel : limits.steps - r.steps + limits.depth * n < fuel) :
    (r.iterate program limits fuel).isSome ∨ r.IsTrapped program limits := by
  induction fuel generalizing r with
  | zero => omega
  | succ fuel ih =>
    by_cases hlimit : limits.steps ≤ r.steps
    · by_cases htrapped : r.Trapped limits
      · exact .inr ⟨r, .refl, htrapped⟩
      · have hends : ∃ o, Progress.Ends program limits (.more r) o :=
          (ends_iff_of_limit hlimit).2 htrapped
        obtain ⟨o, ho⟩ := hends
        obtain ⟨m, hm⟩ := escaping_of_ends ho r rfl hlimit
        have hle := hm.le hr.regions
        have hdepth := Nat.mul_le_mul_right n hr.depth
        rw [List.length_cons] at hle
        exact .inl (iterate_isSome_of_escaping hlimit hm (by omega))
    · rw [iterate]
      have hsteps := @stepsTo_step program limits r
      cases hstep : r.step program limits with
      | done => exact .inl rfl
      | more r' =>
        rw [hstep] at hsteps
        have hcount : r'.steps = r.steps + 1 := by
          rcases hsteps.steps_eq with ⟨-, h⟩ | ⟨h, -⟩
          · exact h
          · exact absurd h hlimit
        rcases ih (hr.step hcounts hprogram hsteps) (hsteps.counts hcounts) (by omega)
          with h | ⟨r'', hleads, htrapped⟩
        · exact .inl h
        · exact .inr ⟨r'', .step trivial hstep hleads, htrapped⟩

/-! ## Calls from outside -/

/-- A method has no more handlers than the method of the program with most. -/
theorem length_handlers_le {m : Method} (hm : m ∈ program.methods) : m.body.handlers.length ≤
    (program.methods.toList.map fun m => m.body.handlers.length).foldl max 0 := by
  have hmem : m.body.handlers.length ∈
      program.methods.toList.map fun m => m.body.handlers.length :=
    List.mem_map.2 ⟨m, Array.mem_toList_iff.2 hm, rfl⟩
  have hmax : ∀ (ks : List Nat) (k : Nat), k ≤ ks.foldl max k ∧ ∀ j ∈ ks, j ≤ ks.foldl max k := by
    intro ks
    induction ks with
    | nil => exact fun k => ⟨Nat.le_refl k, by simp⟩
    | cons j ks ih =>
      intro k
      obtain ⟨hle, hall⟩ := ih (max k j)
      rw [List.foldl_cons]
      exact ⟨by omega, List.forall_mem_cons.2 ⟨by omega, hall⟩⟩
  exact (hmax _ 0).2 _ hmem

/-- The handlers of each method are as many as those of the method with most at most. -/
theorem regions_length_le : program.Regions
    (·.length ≤ (program.methods.toList.map fun m => m.body.handlers.length).foldl max 0) := by
  intro m hm regions hregions
  rw [Option.length_mapM hregions]
  exact length_handlers_le hm

/-- The fuel of a program is enough for a run that begins from outside, unless it comes to one that is
trapped. -/
theorem iterate_fuel_isSome_or {m : Method} {arguments : List Value} {store : Store} {steps : Nat}
    (hm : m ∈ program.methods)
    (h : Activation.enter m arguments store.depth limits.depth = .ok a) :
    ((⟨store.opened, steps, a, []⟩ : Run).iterate program limits (fuel program limits)).isSome ∨
      IsTrapped program limits ⟨store.opened, steps, a, []⟩ := by
  refine iterate_isSome_or regions_length_le (bounded_enter regions_length_le hm h)
    (counts_enter a store steps) ?_
  unfold fuel
  dsimp only
  generalize (program.methods.toList.map fun m => m.body.handlers.length).foldl max 0 = n
  have hle : limits.depth * n ≤ limits.depth * (n + 2) :=
    Nat.mul_le_mul_left limits.depth (Nat.le_add_right n 2)
  rw [Nat.add_mul]
  omega

/-- The fuel of a program is enough for a run that begins from outside and ends. -/
theorem iterate_of_ends {m : Method} {arguments : List Value} {store : Store} {steps : Nat}
    {o : Ending} (hm : m ∈ program.methods)
    (h : Activation.enter m arguments store.depth limits.depth = .ok a)
    (hends : Progress.Ends program limits (.more ⟨store.opened, steps, a, []⟩) o) :
    (⟨store.opened, steps, a, []⟩ : Run).iterate program limits (fuel program limits) = some o := by
  have hsome := (iterate_fuel_isSome_or hm h).resolve_right fun htrapped => htrapped.not_ends hends
  obtain ⟨o', ho'⟩ := Option.isSome_iff_exists.1 hsome
  rw [ho', (Progress.Ends.of_iterate ho').unique hends]

/-! ## Handlers behind what they protect -/

/-- A run of a program whose handlers lie behind what they protect ends. -/
theorem exists_ends {m : Method} {arguments : List Value} {store : Store} {steps : Nat}
    (hprogram : ∀ m ∈ program.methods, m.Forward) (hm : m ∈ program.methods)
    (h : Activation.enter m arguments store.depth limits.depth = .ok a) :
    ∃ o, Progress.Ends program limits (.more ⟨store.opened, steps, a, []⟩) o := by
  have hsome := (@iterate_fuel_isSome_or program limits a m arguments store steps hm h).resolve_right ?_
  · obtain ⟨o, ho⟩ := Option.isSome_iff_exists.1 hsome
    exact ⟨o, .of_iterate ho⟩
  rintro ⟨r, hleads, -, b, hb, hcircle⟩
  have hstart : Bounded (∀ g ∈ ·, g.tryEnd ≤ g.handlerStart) limits.depth
      ⟨store.opened, steps, a, []⟩ := bounded_enter hprogram hm h
  have hr := hstart.leads (counts_enter a store steps) hprogram hleads
  obtain ⟨k, hk⟩ := Region.Escapes.exists_of_forward (hr.regions b hb) b.pc
  exact hcircle k hk

end Run

/-- A call from outside is answered as the run that it begins ends. -/
theorem Session.invoke_of_ends {s : Session} {m : Method} {arguments : List Value} {a : Activation}
    {o : Ending} (hm : m ∈ s.program.methods)
    (henter : Activation.enter m arguments s.store.depth s.limits.depth = .ok a)
    (hends : Progress.Ends s.program s.limits (.more ⟨s.store.opened, s.steps, a, []⟩) o) :
    s.invoke m arguments = some (o.1, { s with store := o.2.1, steps := o.2.2 }) := by
  have ho := Run.iterate_of_ends hm henter hends
  unfold invoke
  rw [henter]
  dsimp only
  rw [ho]
  rfl

end ManagedC
