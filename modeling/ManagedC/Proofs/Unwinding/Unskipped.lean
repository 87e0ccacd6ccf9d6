import ManagedC.Proofs.Unwinding.Log

/-!
# Errors do not pass handlers by

When an error comes up in a call, the handlers of the regions around the place run before the call ends
with an error. This holds of any assembled method, whatever its handlers do, as long as they are left by
their end or by an error that comes up in them, and steps do not run out. Main statement:
`Session.invoke_unskipped`.
-/

namespace ManagedC

/-- The method was put together step by step and finished. -/
def Method.Assembled (m : Method) : Prop := ∃ a : Assembler, a.Reached ∧ a.finish = .ok m

/-- The regions of a method are nested, and where their handlers start there is an instruction. -/
structure Method.Regular (m : Method) (regions : List Region) : Prop where
  nested : Nested regions
  /-- Handlers start at an instruction. -/
  started : ∀ g ∈ regions, g.handlerStart < m.body.instructions.size

/-- The handlers on their way that run because of the error that came up last. -/
def Activation.recovering? (a : Activation) : Option Pending :=
  a.pending.find? fun p => p.completion.error?.isSome

/-- Control is in the handler that runs because of the error that came up last. -/
def Activation.InHandler (a : Activation) : Prop :=
  ∃ p g, a.recovering? = some p ∧ g ∈ a.regions ∧ g.handlerStart = p.handlerStart ∧ g.Handles a.pc

/-- While a call recovers from an error, its steps do not run out, no handler of it returns, and errors
come up in it only where control is in a handler that runs because of an error. -/
structure Undisturbed (callers : List Activation) (seen : List LogEntry) : Prop where
  /-- Steps do not run out. -/
  limit : ∀ a c, .incident (.fault callers a c) ∈ seen → ∀ n, c.fault ≠ .stepLimitExceeded n
  ret : ∀ a c, .incident (.givenUp callers a c) ∉ seen
  /-- Errors come up in handlers. -/
  inside : ∀ e a c, .incident e ∈ seen → e.error? = some (callers, a, c) → a.InHandler

/-- The handler of a region begins, and its first instruction is executed at once. -/
def Visits (callers : List Activation) (g : Region) (seen : List LogEntry) : Prop :=
  ∃ front b back, seen = front ++ .incident (.begins callers g) :: .executes callers b :: back ∧
    b.pc = g.handlerStart

/-- The rest of a log in which a call ends with an error, and until then the handlers of regions run, if
nothing disturbs them. -/
def Unskipped (callers : List Activation) (hs : List Region) (log : List LogEntry) : Prop :=
  ∃ seen d rest, log = seen ++ .incident (.exits callers d) :: rest ∧
    (∀ d, .incident (.exits callers d) ∉ seen) ∧
    (Undisturbed callers seen → ∀ g ∈ hs, Visits callers g seen)

variable {program : Module} {limits : Limits} {callers : List Activation} {host : Activation}
  {g : Region} {hs : List Region} {seen log : List LogEntry} {result : CallResult}
  {c : Crash} {p : Progress}

/-! ## What may stand before a log -/

theorem Undisturbed.of_append (before : List LogEntry) (h : Undisturbed callers (before ++ seen)) :
    Undisturbed callers seen :=
  ⟨fun a c hc => h.limit a c (List.mem_append_right _ hc),
    fun a c hc => h.ret a c (List.mem_append_right _ hc),
    fun e a c he => h.inside e a c (List.mem_append_right _ he)⟩

theorem Visits.append (before : List LogEntry) (h : Visits callers g seen) :
    Visits callers g (before ++ seen) := by
  obtain ⟨front, b, back, rfl, hb⟩ := h
  exact ⟨before ++ front, b, back, by rw [List.append_assoc], hb⟩

/-- Something is to be seen before, and the call does not end. -/
theorem Unskipped.append (before : List LogEntry) (h : Unskipped callers hs log)
    (hbefore : ∀ d, .incident (.exits callers d) ∉ before) : Unskipped callers hs (before ++ log) := by
  obtain ⟨seen, d, rest, rfl, hexits, hvisits⟩ := h
  refine ⟨before ++ seen, d, rest, by rw [List.append_assoc], ?_, ?_⟩
  · intro d hd
    exact (List.mem_append.1 hd).elim (hbefore d) (hexits d)
  · intro hcalm g hg
    exact (hvisits (hcalm.of_append before) g hg).append before

/-- The call ends at once. -/
theorem Unskipped.exits {d : Crash} {rest : List LogEntry} :
    Unskipped callers [] (.incident (.exits callers d) :: rest) :=
  ⟨[], d, rest, rfl, by simp, by simp⟩

/-- A handler begins before the others. -/
theorem Unskipped.begins {r : Run} (h : Unskipped r.callers hs log)
    (hlog : Progress.Log program limits (.more r) log result)
    (hi : r.current.instruction?.isSome = true) (hpc : r.current.pc = g.handlerStart) :
    Unskipped r.callers (g :: hs) (.incident (.begins r.callers g) :: log) := by
  obtain ⟨seen, d, rest, rfl, hexits, hvisits⟩ := h
  refine ⟨.incident (.begins r.callers g) :: seen, d, rest, rfl, ?_, ?_⟩
  · intro d hd
    rcases List.mem_cons.1 hd with heq | hd
    · cases heq
    · exact hexits d hd
  · intro hcalm
    have hrest : ∀ k ∈ hs, Visits r.callers k (.incident (.begins r.callers g) :: seen) :=
      fun k hk => (hvisits (hcalm.of_append [_]) k hk).append [_]
    refine List.forall_mem_cons.2 ⟨?_, hrest⟩
    -- The log does not begin with the end of the call, so that `seen` begins as the log does.
    rcases hlog.first hi with ⟨later, hfirst⟩ | ⟨c, later, hfirst, hlimit⟩
    · cases seen with
      | nil => cases hfirst
      | cons first seen =>
        obtain ⟨rfl, -⟩ := List.cons.inj hfirst
        exact ⟨[], r.current, seen, rfl, hpc⟩
    · cases seen with
      | nil => cases hfirst
      | cons first seen =>
        obtain ⟨rfl, -⟩ := List.cons.inj hfirst
        exact absurd hlimit
          (hcalm.limit r.current c (List.mem_cons_of_mem _ List.mem_cons_self) _)

/-- Incidents in calls that a call has made do not end it. -/
theorem exits_notMem_above {above : List Incident}
    (habove : ∀ e ∈ above, callers.length < e.callers.length) :
    ∀ d, LogEntry.incident (.exits callers d) ∉ above.map LogEntry.incident := by
  intro d hd
  obtain ⟨e, he, heq⟩ := List.mem_map.1 hd
  cases heq
  exact absurd (habove _ he) (Nat.lt_irrefl _)

/-- The instruction of a step comes first. -/
theorem Unskipped.executes {r : Run} (h : Unskipped callers hs log) :
    Unskipped callers hs (r.executes limits ++ log) := by
  refine h.append _ fun d hd => ?_
  unfold Run.executes at hd
  split at hd
  · simp at hd
  · simp at hd

/-- The incidents of a call that ends with an error begin with its end. -/
theorem Incident.ended_eq (c : Crash) (callers : List Activation) :
    ∃ rest, ended c callers = .exits callers c :: rest := by
  cases callers with
  | nil => exact ⟨[], rfl⟩
  | cons caller callers => exact ⟨_, ended_cons c caller callers⟩

theorem unskipped_ended :
    Unskipped callers [] ((Incident.ended c callers).map .incident ++ log) := by
  obtain ⟨rest, hended⟩ := Incident.ended_eq c callers
  rw [hended]
  exact .exits

/-! ## A call that recovers from an error -/

namespace Nested

variable {regions : List Region} {h : Region}

/-- Handlers of different regions start at different places. -/
theorem eq_of_handlerStart (hr : Nested regions) (hg : g ∈ regions) (hh : h ∈ regions)
    (heq : g.handlerStart = h.handlerStart) : g = h := by
  have hnodup : (regions.map (·.handlerStart)).Nodup := by
    rw [List.Nodup, List.pairwise_map]
    refine hr.closed.imp_of_mem fun {a b} ha hb hab => ?_
    have := (hr.shaped a ha).body
    have := (hr.shaped a ha).order
    have := (hr.shaped a ha).handler
    have := (hr.shaped b hb).body
    have := (hr.shaped b hb).order
    rcases hab with hfront | ⟨_, _⟩ | ⟨_, _⟩
    · omega
    · omega
    · omega
  exact List.inj_on_of_nodup_map hnodup hg hh heq

end Nested

/-- In the call handlers of regions are still to run because of an error, after that of another region
which lies in the bodies of all of them. -/
structure Activation.Recovering (a : Activation) (hs : List Region) : Prop where
  /-- The regions of the method are nested. -/
  regular : a.method.Regular a.regions
  /-- The handlers on their way. -/
  pending : ∃ p g, a.recovering? = some p ∧ g.handlerStart = p.handlerStart ∧ p.rest = hs ∧
    (g :: hs).Pairwise Region.Under ∧ ∀ h ∈ g :: hs, h ∈ a.regions

namespace Activation

variable {a b : Activation} {region : Region} {rest : List Region} {q : Pending}
  {ps : List Pending}

theorem recovering_jump {target : Nat} (h : a.pending = q :: ps)
    (hq : q.completion = .jump target) : a.recovering? = ps.find? fun p => p.completion.error?.isSome := by
  unfold recovering?
  rw [h, List.find?_cons, hq]
  rfl

theorem recovering_fail (h : a.pending = q :: ps) (hq : q.completion = .fail c) :
    a.recovering? = some q := by
  unfold recovering?
  rw [h, List.find?_cons, hq]
  rfl

namespace Recovering

theorem congr (h : a.Recovering hs) (hmethod : b.method = a.method) (hregions : b.regions = a.regions)
    (hpending : b.recovering? = a.recovering?) : b.Recovering hs := by
  obtain ⟨hregular, hrest⟩ := h
  refine ⟨?_, ?_⟩
  · rw [hmethod, hregions]
    exact hregular
  · rw [hpending, hregions]
    exact hrest

/-- An error comes up, and the first handler begins. -/
theorem of_covering (ha : a.method.Regular a.regions) (h : a.covering = region :: rest) :
    (a.enterHandler region rest (.fail c)).Recovering rest := by
  have hcovering : ManagedC.covering a.regions a.pc = region :: rest := h
  have hpairs := @Nested.pairwise_covering a.pc a.regions ha.nested
  rw [hcovering] at hpairs
  exact ⟨ha, _, region, rfl, rfl, rfl, hpairs, fun k hk => mem_of_covering hcovering hk⟩

/-- A handler has ended, and the next one begins. -/
theorem next (h : a.Recovering hs) (hpending : a.pending = q :: ps) (hq : q.completion = .fail c)
    (hrest : q.rest = region :: rest) : hs = region :: rest ∧
      ({ a with pending := ps }.enterHandler region rest q.completion).Recovering rest := by
  obtain ⟨hregular, p, g, hp, -, rfl, hpairs, hmem⟩ := h
  rw [recovering_fail hpending hq] at hp
  obtain rfl := Option.some.inj hp
  rw [hrest] at hpairs hmem
  refine ⟨hrest, hregular, ⟨region.handlerStart, rest, q.completion⟩, region, ?_, rfl, rfl, ?_, ?_⟩
  · exact recovering_fail (c := c) rfl hq
  · exact (List.pairwise_cons.1 hpairs).2
  · exact fun k hk => hmem k (List.mem_cons_of_mem _ hk)

/-- The last handler has ended. -/
theorem eq_nil (h : a.Recovering hs) (hpending : a.pending = q :: ps) (hq : q.completion = .fail c)
    (hrest : q.rest = []) : hs = [] := by
  obtain ⟨-, p, -, hp, -, rfl, -⟩ := h
  rw [recovering_fail hpending hq] at hp
  obtain rfl := Option.some.inj hp
  exact hrest

/-- The regions whose handlers are still to run protect the running handler. -/
theorem covering (h : a.Recovering hs) (hin : a.InHandler) : ∀ k ∈ hs, k ∈ a.covering := by
  obtain ⟨hregular, p, g, hp, hstart, rfl, hpairs, hmem⟩ := h
  obtain ⟨p', g', hp', hg', hstart', hlow, hhigh⟩ := hin
  obtain rfl := Option.some.inj (hp.symm.trans hp')
  obtain rfl := hregular.nested.eq_of_handlerStart hg' (hmem g List.mem_cons_self)
    (hstart'.trans hstart.symm)
  intro k hk
  obtain ⟨hlow', hhigh'⟩ := (List.pairwise_cons.1 hpairs).1 k hk
  have hshaped := hregular.nested.shaped g' hg'
  have := hshaped.body
  have := hshaped.order
  refine List.mem_filter.2 ⟨hmem k (List.mem_cons_of_mem _ hk), Region.protects_iff.2 ?_⟩
  omega

/-- An error comes up in the call. -/
theorem unskipped_error {e : Incident} (h : host.Recovering hs)
    (he : e.error? = some (callers, host, c)) (hraised : Unskipped callers host.covering log) :
    Unskipped callers hs (.incident e :: log) := by
  obtain ⟨seen, d, rest, rfl, hexits, hvisits⟩ := hraised
  refine ⟨.incident e :: seen, d, rest, rfl, ?_, ?_⟩
  · intro d hd
    rcases List.mem_cons.1 hd with heq | hd
    · cases heq
      cases he
    · exact hexits d hd
  · intro hcalm k hk
    have hin : host.InHandler := hcalm.inside e host c List.mem_cons_self he
    have hlater := hvisits (hcalm.of_append [_]) k (h.covering hin k hk)
    exact hlater.append [_]

end Recovering

end Activation

/-- A call is in progress, or it waits for calls that it has made. -/
inductive Hosts (callers : List Activation) (host : Activation) : Progress → Prop where
  | current {s : Store} {steps : Nat} : Hosts callers host (.more ⟨s, steps, host, callers⟩)
  | waiting {r : Run} (guests : List Activation) : r.callers = guests ++ host :: callers →
    Hosts callers host (.more r)

/-- An error comes up in a call: the handlers around the place run. -/
theorem unskipped_raised {s : Store} {steps : Nat} (ha : host.method.Regular host.regions)
    (hlog : Progress.Log program limits (Run.raise s steps c host callers) log result)
    (hlater : ∀ b gs, Hosts callers b (Run.raise s steps c host callers) → b.Recovering gs →
      Unskipped callers gs log) :
    Unskipped callers host.covering ((Incident.raised c host callers).map .incident ++ log) := by
  cases hcovering : host.covering with
  | nil =>
    rw [Incident.raised_nil hcovering]
    exact unskipped_ended
  | cons region rest =>
    rw [Incident.raised_cons hcovering]
    rw [Run.raise_of_covering_cons hcovering] at hlog hlater
    have hrest : Unskipped callers rest log :=
      hlater _ rest .current (Activation.Recovering.of_covering ha hcovering)
    have hmem : region ∈ host.regions := mem_of_covering hcovering List.mem_cons_self
    have hi : host.method.body.instructions[region.handlerStart]?.isSome = true := by
      rw [Array.getElem?_eq_getElem (ha.started region hmem)]
      rfl
    exact hrest.begins hlog hi rfl

/-- In the call in progress a step is made. -/
theorem unskipped_current {s : Store} {steps : Nat} {es : List Incident} {q : Progress}
    (hshows : Run.Shows program limits ⟨s, steps, host, callers⟩ es q)
    (hlog : Progress.Log program limits q log result)
    (hlater : ∀ b gs, Hosts callers b q → b.Recovering gs → Unskipped callers gs log)
    (hhost : host.Recovering hs) : Unskipped callers hs (es.map .incident ++ log) := by
  have hpending : host.pending ≠ [] := by
    intro hnil
    obtain ⟨-, p, -, hp, -⟩ := hhost
    unfold Activation.recovering? at hp
    rw [hnil] at hp
    cases hp
  cases hshows with
  | executed _ _ _ hexec =>
    have hsame := hexec.same
    refine hlater _ hs .current (hhost.congr hsame.method hsame.regions ?_)
    unfold Activation.recovering?
    rw [hsame.pending]
  | called => exact hlater _ hs (.waiting [] rfl) (hhost.congr rfl rfl rfl)
  | returned _ _ _ hnil => exact absurd hnil hpending
  | crashes =>
    exact hhost.unskipped_error rfl (unskipped_raised hhost.regular hlog hlater)
  | givesUp =>
    rename_i d _
    obtain ⟨rest, hended⟩ := Incident.ended_eq d callers
    rw [List.map_cons, List.cons_append]
    show Unskipped callers hs (_ :: ((Incident.ended d callers).map .incident ++ log))
    rw [hended]
    exact ⟨[_], d, _, rfl, by simp, fun hcalm => absurd List.mem_cons_self (hcalm.ret host d)⟩
  | jumped =>
    exact (hlater _ hs .current (hhost.congr rfl rfl rfl)).append [_, _] (by simp)
  | left =>
    refine (hlater _ hs .current (hhost.congr rfl rfl ?_)).append [_, _] (by simp)
    exact Activation.recovering_jump rfl rfl
  | @nextHandler p outer region rest hlimit hi hp hrest =>
    have hp : host.pending = p :: outer := hp
    cases hq : p.completion with
    | jump target =>
      rw [hq] at hlater
      refine (hlater _ hs .current (hhost.congr rfl rfl ?_)).append [_, _] (by simp)
      rw [Activation.recovering_jump hp hq]
      exact Activation.recovering_jump rfl rfl
    | fail c =>
      obtain ⟨rfl, hnext⟩ := hhost.next hp hq hrest
      have hrest : Unskipped callers rest log := hlater _ rest .current hnext
      have hmem : region ∈ host.regions := by
        obtain ⟨-, p', g, hp', -, hp'', -, hmem⟩ := hhost
        exact hmem region (List.mem_cons_of_mem _ List.mem_cons_self)
      have hi : host.method.body.instructions[region.handlerStart]?.isSome = true := by
        rw [Array.getElem?_eq_getElem (hhost.regular.started region hmem)]
        rfl
      exact (hrest.begins hlog hi rfl).append [_] (by simp)
  | jumpDone _ _ hp _ hq =>
    refine (hlater _ hs .current (hhost.congr rfl rfl ?_)).append [_, _] (by simp)
    exact (Activation.recovering_jump hp hq).symm
  | crashDone _ _ hp hrest hq =>
    obtain rfl := hhost.eq_nil hp hq hrest
    rw [List.map_cons, List.cons_append]
    exact unskipped_ended.append [_] (by simp)

/-- A step is made in a call above the one that recovers. -/
theorem unskipped_waiting {r : Run} {guests : List Activation} {es : List Incident} {q : Progress}
    (hcallers : r.callers = guests ++ host :: callers) (hshows : r.Shows program limits es q)
    (hlog : Progress.Log program limits q log result)
    (hlater : ∀ b gs, Hosts callers b q → b.Recovering gs → Unskipped callers gs log)
    (hhost : host.Recovering hs) : Unskipped callers hs (es.map .incident ++ log) := by
  obtain ⟨s, steps, a, above⟩ := r
  obtain rfl : above = guests ++ host :: callers := hcallers
  have hwaits : ∀ (guests' : List Activation) {r' : Run}, q = .more r' →
      r'.callers = guests' ++ host :: callers → (∀ e ∈ es, callers.length < e.callers.length) →
      Unskipped callers hs (es.map .incident ++ log) := by
    intro guests' r' hq hr' hes
    subst hq
    exact (hlater host hs (.waiting guests' hr') hhost).append _ (exits_notMem_above hes)
  have hpasses : ∀ {c : Crash} {k : Nat}, Passes host callers c k es q →
      Unskipped callers hs (es.map .incident ++ log) := by
    rintro c k (⟨r', guests', hq, hr', hes⟩ | ⟨above, t, rfl, habove, rfl⟩)
    · exact hwaits guests' hq hr' hes
    · have hraised := unskipped_raised hhost.regular hlog hlater
      have herror : Unskipped callers hs
          (.incident (.received callers host c) :: _) := hhost.unskipped_error rfl hraised
      rw [List.map_append, List.append_assoc]
      exact herror.append _ (exits_notMem_above habove)
  have hself : ∀ e : Incident, e.callers = guests ++ host :: callers →
      callers.length < e.callers.length := by
    intro e he
    rw [he]
    exact length_lt guests
  cases hshows with
  | executed => exact hwaits guests rfl rfl (by simp)
  | called => exact hwaits (_ :: guests) rfl rfl (by simp)
  | @returned value =>
    cases guests with
    | nil =>
      cases value with
      | none => exact hlater _ hs .current (hhost.congr rfl rfl rfl)
      | some v => exact hlater _ hs .current (hhost.congr rfl rfl rfl)
    | cons guest guests => cases value <;> exact hwaits guests rfl rfl (by simp)
  | crashes => exact hpasses (passes_raise.above (hself _ rfl))
  | givesUp => exact hpasses (passes_resume.above (hself _ rfl))
  | jumped | left | nextHandler | jumpDone =>
    exact hwaits guests rfl rfl (List.forall_mem_cons.2 ⟨hself _ rfl,
      List.forall_mem_singleton.2 (hself _ rfl)⟩)
  | crashDone => exact hpasses (passes_resume.above (hself _ rfl))

/-- A call that recovers from an error ends with one, and no handler on the way is skipped. -/
theorem Progress.Log.unskipped (h : Log program limits p log result) :
    ∀ b gs, Hosts callers b p → b.Recovering gs → Unskipped callers gs log := by
  induction h with
  | done =>
    intro b gs hhosts
    cases hhosts
  | @step r q es log result hshows hlog ih =>
    intro b gs hhosts hb
    cases hhosts with
    | current => exact (unskipped_current hshows hlog ih hb).executes
    | waiting guests hcallers => exact (unskipped_waiting hcallers hshows hlog ih hb).executes

/-! ## Assembled methods -/

theorem Method.Assembled.regular {m : Method} (h : m.Assembled) :
    ∃ regions, m.body.handlers.mapM m.body.region? = some regions ∧ m.Regular regions := by
  obtain ⟨a, ha, hfinish⟩ := h
  obtain ⟨regions, htidy⟩ := ha.tidy
  obtain rfl : a.method = m := by
    unfold Assembler.finish at hfinish
    split at hfinish
    · cases hfinish
    · split at hfinish
      · cases hfinish
      · cases hfinish
        rfl
  refine ⟨regions, htidy.resolved, htidy.nested, ?_⟩
  intro g hg
  have hend : g.handlerEnd ≤ a.method.body.instructions.size := htidy.finished g hg
  have := (htidy.nested.shaped g hg).handler
  omega

namespace Run

/-- All calls are of methods with nested regions. -/
def Regular (r : Run) : Prop := ∀ a ∈ r.current :: r.callers, a.method.Regular a.regions

variable {s : Store} {steps : Nat} {r r' : Run} {es : List Incident}

theorem regular_raise : ∀ {callers : List Activation} {a : Activation} {s : Store},
    (∀ b ∈ a :: callers, b.method.Regular b.regions) → raise s steps c a callers = .more r' →
    r'.Regular
  | callers, a, s, h, hr' => by
    cases hcovering : a.covering with
    | cons region rest =>
      rw [raise_of_covering_cons hcovering] at hr'
      cases hr'
      obtain ⟨ha, hcallers⟩ := List.forall_mem_cons.1 h
      exact List.forall_mem_cons.2 ⟨ha, hcallers⟩
    | nil =>
      rw [raise_of_covering_nil hcovering] at hr'
      cases callers with
      | nil => cases hr'
      | cons caller callers => exact regular_raise (List.forall_mem_cons.1 h).2 hr'
termination_by callers => callers.length

theorem regular_resume {value : CallResult} (h : ∀ b ∈ callers, b.method.Regular b.regions)
    (hr' : resume callers value s steps = .more r') : r'.Regular := by
  cases callers with
  | nil => cases hr'
  | cons caller callers =>
    obtain ⟨hcaller, hrest⟩ := List.forall_mem_cons.1 h
    match value, hr' with
    | .error c, hr' => exact regular_raise h hr'
    | .ok none, hr' =>
      cases hr'
      exact List.forall_mem_cons.2 ⟨hcaller, hrest⟩
    | .ok (some v), hr' =>
      cases hr'
      exact List.forall_mem_cons.2 ⟨hcaller, hrest⟩

/-- Calls are of methods of the program. -/
theorem Regular.shows (hprogram : ∀ m ∈ program.methods, m.Assembled) (hr : r.Regular)
    (hshows : r.Shows program limits es (.more r')) : r'.Regular := by
  obtain ⟨s, steps, a, callers⟩ := r
  obtain ⟨ha, hcallers⟩ := List.forall_mem_cons.1 hr
  generalize hq : Progress.more r' = q at hshows
  cases hshows with
  | executed _ _ _ hexec =>
    cases hq
    have hsame := hexec.same
    refine List.forall_mem_cons.2 ⟨?_, hcallers⟩
    rw [hsame.method, hsame.regions]
    exact ha
  | called _ _ hm _ henter =>
    cases hq
    obtain ⟨-, -, regions, hregions, rfl⟩ := Activation.enter_eq_ok.1 henter
    obtain ⟨regions', hregions', hregular⟩ := (hprogram _ (Module.mem_of_findMethod? hm)).regular
    obtain rfl := Option.some.inj (hregions'.symm.trans hregions)
    exact List.forall_mem_cons.2 ⟨hregular, List.forall_mem_cons.2 ⟨ha, hcallers⟩⟩
  | returned | givesUp | crashDone => exact regular_resume hcallers hq.symm
  | crashes => exact regular_raise hr hq.symm
  | jumped | left | nextHandler | jumpDone =>
    cases hq
    exact List.forall_mem_cons.2 ⟨ha, hcallers⟩

end Run

/-! ## A method with two handlers -/

namespace Assembly

/-- A computation that assembles: it leads from what steps of assembling lead to, to the same. -/
def Assembles {α : Type} (x : Assembly α) : Prop :=
  ∀ (a b : Assembler) (v : α), a.Reached → Yields x a v b → b.Reached

namespace Assembles

variable {α β : Type} {x : Assembly α}

theorem bind {f : α → Assembly β} (hx : x.Assembles) (hf : ∀ v, (f v).Assembles) :
    (x >>= f).Assembles := by
  intro a c w ha h
  obtain ⟨v, b, hv, hw⟩ := Yields.bind_iff.1 h
  exact hf v b c w (hx a b v ha hv) hw

theorem discard (hx : x.Assembles) : (Functor.discard x).Assembles := by
  intro a b v ha h
  obtain ⟨w, hw, -⟩ := Yields.map_iff.1 h
  exact hx a b w ha hw

end Assembles

end Assembly

/-- The code of a method that takes a value from an empty stack inside two protected bodies. The handler
of the inner one begins with the given instruction, and the outer one takes a value, too. -/
def Method.skippingCode (handler : Instruction) : Assembly Unit := do
  let out ← Assembly.newLabel
  discard Assembly.beginTry
  discard Assembly.beginTry
  Assembly.emit .pop
  Assembly.beginFinally
  Assembly.emit handler
  Assembly.endTry
  Assembly.beginFinally
  Assembly.emit .pop
  Assembly.endTry
  Assembly.mark out
  Assembly.emit .pop
  Assembly.emit .ret

/-- The method with that code. -/
def Method.skipping (handler : Instruction) : Method where
  name := "skipping"
  attributes := .publicStatic
  returnType := .void
  parameters := []
  locals := #[]
  body := {
    instructions := #[.pop, .leave 4, handler, .endFinally, .leave 2, .pop, .endFinally, .pop, .ret]
    labels := ⟨[(0, 7), (1, 0), (2, 7), (3, 0), (4, 4), (5, 2), (6, 5)], by decide⟩
    handlers := [⟨3, 5, 5, 4⟩, ⟨1, 6, 6, 2⟩] }

theorem Method.assembles_skippingCode (handler : Instruction) :
    (skippingCode handler).Assembles := by
  have hemit : ∀ i, (Assembly.emit i).Assembles := fun i a b v ha h => .emit ha h
  have htry : (discard Assembly.beginTry).Assembles :=
    Assembly.Assembles.discard fun a b v ha h => .beginTry ha h
  have hfinally : Assembly.beginFinally.Assembles := fun a b v ha h => .beginFinally ha h
  have hend : Assembly.endTry.Assembles := fun a b v ha h => .endTry ha h
  have hlabel : Assembly.newLabel.Assembles := fun a b v ha h => .newLabel ha h
  have hmark : ∀ label, (Assembly.mark label).Assembles := fun label a b v ha h => .mark ha h
  unfold skippingCode
  refine .bind hlabel fun out => .bind htry fun _ => .bind htry fun _ => .bind (hemit _) fun _ => ?_
  refine .bind hfinally fun _ => .bind (hemit _) fun _ => .bind hend fun _ => ?_
  refine .bind hfinally fun _ => .bind (hemit _) fun _ => .bind hend fun _ => ?_
  exact .bind (hmark out) fun _ => .bind (hemit _) fun _ => hemit _

theorem Method.assembled_skipping {handler : Instruction}
    (hcode : skippingCode handler (.begin "skipping" .void .publicStatic) =
      (.ok (), ⟨skipping handler, 7, []⟩))
    (hfinish : (⟨skipping handler, 7, []⟩ : Assembler).finish = .ok (skipping handler)) :
    (skipping handler).Assembled :=
  ⟨_, assembles_skippingCode handler _ _ () (.begin _ _ _) hcode, hfinish⟩

/-- A call of that method, after which it is at an instruction with handlers on their way. -/
def Activation.skipping (handler : Instruction) (pc : Nat) (pending : List Pending) : Activation :=
  ⟨.skipping handler, [⟨0, 2, 2, 4⟩, ⟨0, 5, 5, 7⟩], #[], #[], [], pc, pending⟩

theorem Activation.enter_skipping (handler : Instruction) {limits : Limits} (h : 0 < limits.depth) :
    enter (.skipping handler) [] 0 limits.depth = .ok (.skipping handler 0 []) :=
  enter_eq_ok.2 ⟨rfl, h, [⟨0, 2, 2, 4⟩, ⟨0, 5, 5, 7⟩], rfl, by simp [skipping, Method.skipping]⟩

/-- What comes up first in that method. -/
def Crash.skipping (pc : Nat) : Crash :=
  ⟨"skipping", pc, .invalidProgram (.stackUnderflow "skipping")⟩

/-- The first step of that method, in which the handler of the inner region begins. -/
theorem Run.shows_skipping (handler : Instruction) : Run.Shows
    { name := "skipping", methods := #[.skipping handler] } {}
    ⟨Store.opened {}, 0, .skipping handler 0 [], []⟩
    [.fault [] (.skipping handler 0 []) (.skipping 0), .begins [] ⟨0, 2, 2, 4⟩]
    (.more ⟨Store.opened {}, 1, .skipping handler 2 [⟨2, [⟨0, 5, 5, 7⟩], .fail (.skipping 0)⟩], []⟩) :=
  .crashes (.faulted (show 0 < 10000000 by decide) rfl rfl rfl)

/-- Every run of a method of a program of assembled methods ends. When an error comes up in a call, at an
instruction that faults or at a call instruction, then the call ends with an error; and until then, if
steps do not run out, no handler of the call returns and errors come up in it in handlers only, the
handler of each region around the place executes its first instruction. -/
theorem Session.invoke_unskipped {s : Session} (hprogram : ∀ m ∈ s.program.methods, m.Assembled)
    {m : Method} (hm : m ∈ s.program.methods) {arguments : List Value} {a : Activation}
    (henter : Activation.enter m arguments s.store.depth s.limits.depth = .ok a) :
    ∃ result s', s.invoke m arguments = some (result, s') ∧
      (∃ log, (Progress.more ⟨s.store.opened, s.steps, a, []⟩).Log s.program s.limits log result) ∧
      ∀ log result',
        (Progress.more ⟨s.store.opened, s.steps, a, []⟩).Log s.program s.limits log result' →
        result' = result ∧
        ∀ before after e callers b c, log = before ++ .incident e :: after →
          e.error? = some (callers, b, c) →
          ∃ seen d rest, after = seen ++ .incident (.exits callers d) :: rest ∧
            (∀ d, .incident (.exits callers d) ∉ seen) ∧
            (Undisturbed callers seen → ∀ g ∈ b.covering, Visits callers g seen) := by
  have hforward : ∀ m ∈ s.program.methods, m.Forward := by
    intro m hm regions hregions g hg
    obtain ⟨regions', hregions', hregular⟩ := (hprogram m hm).regular
    obtain rfl := Option.some.inj (hregions'.symm.trans hregions)
    exact (hregular.nested.shaped g hg).order
  obtain ⟨⟨result, store, steps⟩, hends⟩ :=
    @Run.exists_ends s.program s.limits a m arguments s.store s.steps hforward hm henter
  refine ⟨result, { s with store := store, steps := steps }, invoke_of_ends hm henter hends,
    Progress.Log.exists_of_ends hends, ?_⟩
  intro log result' hlog
  obtain ⟨store', steps', hends'⟩ := hlog.ends
  obtain ⟨rfl, -⟩ := Prod.mk.inj (hends'.unique hends)
  refine ⟨rfl, ?_⟩
  intro before after e callers b c hbefore he
  have hstart : Run.Regular ⟨s.store.opened, s.steps, a, []⟩ := by
    obtain ⟨-, -, regions, hregions, rfl⟩ := Activation.enter_eq_ok.1 henter
    obtain ⟨regions', hregions', hregular⟩ := (hprogram m hm).regular
    obtain rfl := Option.some.inj (hregions'.symm.trans hregions)
    exact List.forall_mem_singleton.2 hregular
  obtain ⟨r, q, front, back, rest, hr, hshows, hrest, rfl⟩ := hlog.step_of (I := Run.Regular)
    (fun r es r' hr hshows => hr.shows hprogram hshows) (by rintro r ⟨⟩; exact hstart) hbefore
  obtain ⟨hplace, rfl, t, k, rfl⟩ := hshows.of_error he
  have hb : b.method.Regular b.regions := by
    rcases hplace with ⟨rfl, -⟩ | ⟨-, hmem⟩
    · cases he
      exact hr _ List.mem_cons_self
    · exact hr b (List.mem_cons_of_mem _ hmem)
  exact unskipped_raised hb hrest hrest.unskipped

/-- A handler that comes to its end is followed by the other one, in which an error comes up. -/
theorem Session.invoke_skipping : ∃ result s' log seen d rest,
    let s : Session := { program := { name := "skipping", methods := #[.skipping .nop] } }
    s.invoke (.skipping .nop) [] = some (result, s') ∧
      (Progress.more ⟨Store.opened {}, 0, .skipping .nop 0 [], []⟩).Log s.program s.limits
        (.executes [] (.skipping .nop 0 []) :: .incident (.fault [] (.skipping .nop 0 []) (.skipping 0)) ::
          log) result ∧
      log = seen ++ .incident (.exits [] d) :: rest ∧
      Visits [] ⟨0, 2, 2, 4⟩ seen ∧ Visits [] ⟨0, 5, 5, 7⟩ seen := by
  let s : Session := { program := { name := "skipping", methods := #[.skipping .nop] } }
  let a := Activation.skipping .nop 0 []
  let b := Activation.skipping .nop 2 [⟨2, [⟨0, 5, 5, 7⟩], .fail (.skipping 0)⟩]
  let c := Activation.skipping .nop 3 [⟨2, [⟨0, 5, 5, 7⟩], .fail (.skipping 0)⟩]
  let d := Activation.skipping .nop 5 [⟨5, [], .fail (.skipping 0)⟩]
  have hnop : Run.Shows s.program {} ⟨Store.opened {}, 1, b, []⟩ [] (.more ⟨Store.opened {}, 2, c, []⟩) :=
    .executed (show 1 < 10000000 by decide) rfl rfl .nop
  have hends : Run.Shows s.program {} ⟨Store.opened {}, 2, c, []⟩ [.ends [], .begins [] ⟨0, 5, 5, 7⟩]
      (.more ⟨Store.opened {}, 3, d, []⟩) :=
    @Run.Shows.nextHandler s.program {} ⟨Store.opened {}, 2, c, []⟩
      ⟨2, [⟨0, 5, 5, 7⟩], .fail (.skipping 0)⟩ [] ⟨0, 5, 5, 7⟩ [] (by decide) rfl rfl rfl
  have hfault : Run.Shows s.program {} ⟨Store.opened {}, 3, d, []⟩
      [.fault [] d (.skipping 5), .exits [] (.skipping 5)] (.done (.error (.skipping 5)) {} 4) :=
    .crashes (t := Store.opened {}) (.faulted (show 3 < 10000000 by decide) rfl rfl rfl)
  have hlog : (Progress.more ⟨Store.opened {}, 0, a, []⟩).Log s.program s.limits
      (.executes [] a :: .incident (.fault [] a (.skipping 0)) :: [.incident (.begins [] ⟨0, 2, 2, 4⟩),
        .executes [] b, .executes [] c, .incident (.ends []), .incident (.begins [] ⟨0, 5, 5, 7⟩),
        .executes [] d, .incident (.fault [] d (.skipping 5)), .incident (.exits [] (.skipping 5))])
      (.error (.skipping 5)) :=
    .step (Run.shows_skipping .nop) (.step hnop (.step hends (.step hfault .done)))
  have hassembled : ∀ m ∈ s.program.methods, m.Assembled := by
    intro m hm
    obtain rfl : m = .skipping .nop := by simpa [s] using hm
    exact Method.assembled_skipping (by cbv) rfl
  obtain ⟨result, s', hinvoke, -, hall⟩ := invoke_unskipped hassembled
    (show Method.skipping .nop ∈ s.program.methods by simp [s])
    (Activation.enter_skipping .nop (show 0 < 256 by decide))
  obtain ⟨rfl, herrors⟩ := hall _ _ hlog
  obtain ⟨seen, e, rest, hseen, -, hvisits⟩ :=
    herrors [.executes [] a] _ _ [] a (.skipping 0) rfl rfl
  have hmem : ∀ x ∈ seen, x ∈ _ := fun x hx => hseen ▸ List.mem_append_left _ hx
  have hcalm : Undisturbed [] seen := by
    refine ⟨?_, ?_, ?_⟩
    · intro a c hc n
      obtain ⟨-, rfl⟩ : a = d ∧ c = .skipping 5 := by simpa using hmem _ hc
      intro heq
      cases heq
    · intro a c hc
      simpa using hmem _ hc
    · intro e a c he herror
      have hcases := hmem _ he
      simp only [List.mem_cons, LogEntry.incident.injEq, reduceCtorEq, false_or, List.not_mem_nil,
        or_false] at hcases
      rcases hcases with rfl | rfl | rfl | rfl | rfl
      · cases herror
      · cases herror
      · cases herror
      · cases herror
        exact ⟨⟨5, [], .fail (.skipping 0)⟩, ⟨0, 5, 5, 7⟩, rfl, by decide, rfl, by decide⟩
      · cases herror
  exact ⟨_, s', _, seen, e, rest, hinvoke, hlog, hseen, hvisits hcalm _ (by decide),
    hvisits hcalm _ (by decide)⟩

/-! ## Handlers that are skipped -/

/-- In the run of a method without parameters a fault comes up, and the handler of a region around the
place does not execute its first instruction. -/
def Method.Skips (m : Method) (limits : Limits) : Prop :=
  ∃ a log result before after b c g,
    Activation.enter m [] 0 limits.depth = .ok a ∧
    (Progress.more ⟨Store.opened {}, 0, a, []⟩).Log { name := "skipping", methods := #[m] } limits
      log result ∧
    log = before ++ .incident (.fault [] b c) :: after ∧ g ∈ b.covering ∧
    ∀ b', .executes [] b' ∈ log → b'.pc ≠ g.handlerStart

/-- The handler of the inner region returns, and that of the outer one is skipped. -/
theorem Method.skips_ret : (skipping .ret).Skips {} := by
  let a := Activation.skipping .ret 0 []
  let b := Activation.skipping .ret 2 [⟨2, [⟨0, 5, 5, 7⟩], .fail (.skipping 0)⟩]
  let d : Crash := ⟨"skipping", 2, .invalidProgram .handlerReturned⟩
  have hret : Run.Shows { name := "skipping", methods := #[skipping .ret] } {} ⟨Store.opened {}, 1, b, []⟩
      [.givenUp [] b d, .exits [] d] (.done (.error d) {} 2) :=
    .givesUp (@Run.GivesUp.handlerReturned {} ⟨Store.opened {}, 1, b, []⟩ none
      ⟨2, [⟨0, 5, 5, 7⟩], .fail (.skipping 0)⟩ [] (by decide) rfl (.inl ⟨rfl, rfl⟩) rfl)
  refine ⟨a, [.executes [] a, .incident (.fault [] a (.skipping 0)),
    .incident (.begins [] ⟨0, 2, 2, 4⟩), .executes [] b, .incident (.givenUp [] b d),
    .incident (.exits [] d)], _, [.executes [] a], _, a, _, ⟨0, 5, 5, 7⟩,
    Activation.enter_skipping _ (show 0 < 256 by decide),
    .step (Run.shows_skipping .ret) (.step hret .done), rfl, by decide, ?_⟩
  intro b' hb'
  obtain rfl | rfl : b' = a ∨ b' = b := by simpa using hb'
  · decide
  · decide

/-- The handler of the inner region jumps out, where another fault comes up, and that of the outer one is
skipped. -/
theorem Method.skips_branch : (skipping (.branch 0)).Skips {} := by
  let a := Activation.skipping (.branch 0) 0 []
  let b := Activation.skipping (.branch 0) 2 [⟨2, [⟨0, 5, 5, 7⟩], .fail (.skipping 0)⟩]
  let c := Activation.skipping (.branch 0) 7 [⟨2, [⟨0, 5, 5, 7⟩], .fail (.skipping 0)⟩]
  have hbranch : Run.Shows { name := "skipping", methods := #[skipping (.branch 0)] } {}
      ⟨Store.opened {}, 1, b, []⟩ [] (.more ⟨Store.opened {}, 2, c, []⟩) :=
    .executed (show 1 < 10000000 by decide) rfl rfl (.branch rfl)
  have hfault : Run.Shows { name := "skipping", methods := #[skipping (.branch 0)] } {}
      ⟨Store.opened {}, 2, c, []⟩ [.fault [] c (.skipping 7), .exits [] (.skipping 7)]
      (.done (.error (.skipping 7)) {} 3) :=
    .crashes (t := Store.opened {}) (.faulted (show 2 < 10000000 by decide) rfl rfl rfl)
  refine ⟨a, [.executes [] a, .incident (.fault [] a (.skipping 0)),
    .incident (.begins [] ⟨0, 2, 2, 4⟩), .executes [] b, .executes [] c,
    .incident (.fault [] c (.skipping 7)), .incident (.exits [] (.skipping 7))], _,
    [.executes [] a], _, a, _, ⟨0, 5, 5, 7⟩,
    Activation.enter_skipping _ (show 0 < 256 by decide),
    .step (Run.shows_skipping (.branch 0)) (.step hbranch (.step hfault .done)), rfl, by decide, ?_⟩
  intro b' hb'
  obtain rfl | rfl | rfl : b' = a ∨ b' = b ∨ b' = c := by simpa using hb'
  · decide
  · decide
  · decide

/-- No instruction may be executed, and all handlers are skipped. -/
theorem Method.skips_limit : (skipping .ret).Skips { steps := 0 } := by
  let out (pc : Nat) : Crash := ⟨"skipping", pc, .stepLimitExceeded 0⟩
  let a := Activation.skipping .ret 0 []
  let b := Activation.skipping .ret 2 [⟨2, [⟨0, 5, 5, 7⟩], .fail (out 0)⟩]
  let c := Activation.skipping .ret 5 [⟨5, [], .fail (out 2)⟩,
    ⟨2, [⟨0, 5, 5, 7⟩], .fail (out 0)⟩]
  have hfirst : Run.Shows { name := "skipping", methods := #[skipping .ret] } { steps := 0 }
      ⟨Store.opened {}, 0, a, []⟩ [.fault [] a (out 0), .begins [] ⟨0, 2, 2, 4⟩]
      (.more ⟨Store.opened {}, 0, b, []⟩) :=
    .crashes (.limit (Nat.le_refl 0))
  have hsecond : Run.Shows { name := "skipping", methods := #[skipping .ret] } { steps := 0 }
      ⟨Store.opened {}, 0, b, []⟩ [.fault [] b (out 2), .begins [] ⟨0, 5, 5, 7⟩]
      (.more ⟨Store.opened {}, 0, c, []⟩) :=
    .crashes (.limit (Nat.le_refl 0))
  have hthird : Run.Shows { name := "skipping", methods := #[skipping .ret] } { steps := 0 }
      ⟨Store.opened {}, 0, c, []⟩ [.fault [] c (out 5), .exits [] (out 5)] (.done (.error (out 5)) {} 0) :=
    .crashes (.limit (Nat.le_refl 0))
  refine ⟨a, [.incident (.fault [] a (out 0)), .incident (.begins [] ⟨0, 2, 2, 4⟩),
    .incident (.fault [] b (out 2)), .incident (.begins [] ⟨0, 5, 5, 7⟩),
    .incident (.fault [] c (out 5)), .incident (.exits [] (out 5))], _, [], _, a, _, ⟨0, 5, 5, 7⟩,
    Activation.enter_skipping _ (show 0 < 256 by decide),
    .step hfirst (.step hsecond (.step hthird .done)), rfl, by decide, ?_⟩
  intro b' hb'
  simp at hb'

/-- Handlers of assembled methods can be skipped: after a handler that returns, after one that jumps out
of itself, and when steps run out. -/
theorem Method.skipped :
    ((skipping .ret).Assembled ∧ (skipping .ret).Skips {}) ∧
    ((skipping (.branch 0)).Assembled ∧ (skipping (.branch 0)).Skips {}) ∧
    (skipping .ret).Skips { steps := 0 } :=
  ⟨⟨assembled_skipping (by cbv) rfl, skips_ret⟩, ⟨assembled_skipping (by cbv) rfl, skips_branch⟩,
    skips_limit⟩

end ManagedC
