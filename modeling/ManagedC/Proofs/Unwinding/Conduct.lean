import ManagedC.Proofs.Unwinding.Confined

/-!
# How handlers run

What a call does in a handler, and how handlers run one after another, is described by the incidents
that are to be seen: `Works` for the time in one handler, `Runs` for handlers that all come to their
ends, and `Unwinds` for those of an error, each of which may come to its end or be replaced by another
error. Main statements: a structured program goes through the handlers of a jump (`Progress.arrives`)
and of an error (`Progress.Raises.unwinds`) in just these ways.
-/

namespace ManagedC

/-- Control goes on at an instruction of the same call, with an empty evaluation stack. -/
structure Activation.Lands (a : Activation) (target : Nat) (b : Activation) : Prop where
  pc : b.pc = target
  stack : b.stack = []
  /-- The method is the same. -/
  method : b.method = a.method
  /-- The regions are the same. -/
  regions : b.regions = a.regions
  /-- The same handlers are on their way. -/
  pending : b.pending = a.pending

mutual

/-- What is to be seen while a call, for which others wait, is in the handler of a region and no error
comes up in it: incidents in calls that it makes, and jumps that run handlers inside this one. -/
inductive Works (callers : List Activation) : Region → List Incident → Prop where
  | nil {g : Region} : Works callers g []
  /-- An incident in a call that it makes. -/
  | above {g : Region} {e : Incident} {es : List Incident} : callers.length < e.callers.length →
    Works callers g es → Works callers g (e :: es)
  /-- A jump, for which handlers run. -/
  | jump {g : Region} {a b : Activation} {target : Nat} {es es' : List Incident} :
    Runs callers (a.leaving target) es → (∀ h ∈ a.leaving target, h.Shaped ∧ h.Inside g) →
    a.Lands target b → Works callers g es' →
    Works callers g (.leaves callers a target :: (es ++ .lands callers b :: es'))

/-- The handlers of regions run one after another, and each comes to its end. -/
inductive Runs (callers : List Activation) : List Region → List Incident → Prop where
  | nil : Runs callers [] []
  /-- The first begins and ends. -/
  | cons {g : Region} {hs : List Region} {es es' : List Incident} : Works callers g es →
    Runs callers hs es' → Runs callers (g :: hs) (.begins callers g :: (es ++ .ends callers :: es'))

end

/-- What is to be seen while a call is in the handler of a region, before an error comes up in it: it
comes up in this handler, or in one that runs for a jump of this one. -/
inductive Breaks (callers : List Activation) : Region → List Incident → Prop where
  /-- It comes up in this handler. -/
  | here {g : Region} {es : List Incident} : Works callers g es → Breaks callers g es
  /-- It comes up in one of the handlers that run for a jump. -/
  | jump {g h : Region} {a : Activation} {target : Nat} {l gs : List Region}
    {w es es' : List Incident} : Works callers g w → a.leaving target = l ++ h :: gs →
    (∀ k ∈ a.leaving target, k.Shaped ∧ k.Inside g) → Runs callers l es → Breaks callers h es' →
    Breaks callers g (w ++ .leaves callers a target :: (es ++ .begins callers h :: es'))

/-- The handlers of regions run because of an error, and in the end there is the same error or
another. -/
inductive Unwinds (callers : List Activation) :
    List Region → Crash → List Incident → Crash → Prop where
  | nil {c : Crash} : Unwinds callers [] c [] c
  /-- The first handler begins and ends. -/
  | next {g : Region} {hs : List Region} {c d : Crash} {es es' : List Incident} : Works callers g es →
    Unwinds callers hs c es' d →
    Unwinds callers (g :: hs) c (.begins callers g :: (es ++ .ends callers :: es')) d
  /-- Another error comes up in the first handler. Handlers inside that handler run for it, and then
  those that were to run anyway. -/
  | again {g : Region} {hs inner : List Region} {c c' d : Crash} {es es' : List Incident}
    {e : Incident} {b : Activation} : Breaks callers g es → e.error? = some (callers, b, c') →
    b.covering = inner ++ hs → (∀ h ∈ inner, h.Shaped ∧ h.Inside g) →
    Unwinds callers (inner ++ hs) c' es' d →
    Unwinds callers (g :: hs) c (.begins callers g :: (es ++ e :: es')) d

/-- The rest of a history that begins when an error comes up in a call. -/
def Progress.Raises (program : Module) (limits : Limits) (n : Nat) (callers : List Activation)
    (a : Activation) (c : Crash) (es : List Incident) (result : CallResult) : Prop :=
  ∃ store steps rest, es = Incident.raised c a callers ++ rest ∧
    (Run.raise store steps c a callers).Confined ∧
    Progress.History program limits n (Run.raise store steps c a callers) rest result

variable {program : Module} {limits : Limits} {result : CallResult}

/-! ## Calls that are made meanwhile -/

section Waiting

variable {host : Activation} {callers : List Activation} {c : Crash} {steps : Nat}

/-- An error in calls above a call that waits: a handler begins in one of them, or the error comes up
in the call that waits. -/
def Passes (host : Activation) (callers : List Activation) (c : Crash) (steps : Nat)
    (es : List Incident) (p : Progress) : Prop :=
  (∃ r guests, p = .more r ∧ r.callers = guests ++ host :: callers ∧
    ∀ e ∈ es, callers.length < e.callers.length) ∨
  ∃ above store, es = above ++ .received callers host c :: Incident.raised c host callers ∧
    (∀ e ∈ above, callers.length < e.callers.length) ∧ p = Run.raise store steps c host callers

theorem Passes.above {e : Incident} {es : List Incident} {p : Progress}
    (h : Passes host callers c steps es p) (he : callers.length < e.callers.length) :
    Passes host callers c steps (e :: es) p := by
  rcases h with ⟨r, guests, rfl, hr, hes⟩ | ⟨above, store, rfl, habove, rfl⟩
  · exact .inl ⟨r, guests, rfl, hr, List.forall_mem_cons.2 ⟨he, hes⟩⟩
  · exact .inr ⟨e :: above, store, rfl, List.forall_mem_cons.2 ⟨he, habove⟩, rfl⟩

theorem length_lt (guests : List Activation) :
    callers.length < (guests ++ host :: callers).length := by
  rw [List.length_append, List.length_cons]
  omega

theorem passes_resume : ∀ {guests : List Activation} {s : Store},
    Passes host callers c steps (Incident.ended c (guests ++ host :: callers))
      (Run.resume (guests ++ host :: callers) (.error c) s steps) := by
  intro guests
  induction guests with
  | nil =>
    intro s
    exact .inr ⟨[.exits (host :: callers) c], s, rfl,
      List.forall_mem_singleton.2 (length_lt []), rfl⟩
  | cons guest guests ih =>
    intro s
    have hreceived : ∀ {es : List Incident} {p : Progress}, Passes host callers c steps es p →
        Passes host callers c steps (.exits (guest :: (guests ++ host :: callers)) c ::
          .received (guests ++ host :: callers) guest c :: es) p :=
      fun h => (h.above (length_lt guests)).above (length_lt (guest :: guests))
    show Passes host callers c steps (Incident.ended c (guest :: (guests ++ host :: callers)))
      (Run.raise s steps c guest (guests ++ host :: callers))
    rw [Incident.ended_cons]
    cases hcovering : guest.covering with
    | nil =>
      rw [Incident.raised_nil hcovering, Run.raise_of_covering_nil hcovering]
      exact hreceived ih
    | cons region rest =>
      rw [Incident.raised_cons hcovering, Run.raise_of_covering_cons hcovering]
      exact hreceived (.inl ⟨_, guests, rfl, rfl, List.forall_mem_singleton.2 (length_lt guests)⟩)

theorem passes_raise {guests : List Activation} {a : Activation} {s : Store} :
    Passes host callers c steps (Incident.raised c a (guests ++ host :: callers))
      (Run.raise s steps c a (guests ++ host :: callers)) := by
  cases hcovering : a.covering with
  | nil =>
    rw [Incident.raised_nil hcovering, Run.raise_of_covering_nil hcovering]
    exact passes_resume
  | cons region rest =>
    rw [Incident.raised_cons hcovering, Run.raise_of_covering_cons hcovering]
    exact .inl ⟨_, guests, rfl, rfl, List.forall_mem_singleton.2 (length_lt guests)⟩

/-- The rest of a history that begins when a call no longer waits: it goes on behind its call
instruction, or an error comes up there. -/
inductive GoesOn (program : Module) (limits : Limits) (host : Activation) (callers : List Activation)
    (n : Nat) (result : CallResult) : List Incident → Prop where
  | resumed {m steps : Nat} {s : Store} {stack : List Value} {es : List Incident} : m < n →
    Run.Confined ⟨s, steps, ({ host with stack := stack } : Activation).advance, callers⟩ →
    Progress.History program limits m
      (.more ⟨s, steps, ({ host with stack := stack } : Activation).advance, callers⟩) es result →
    GoesOn program limits host callers n result es
  | received {m : Nat} {c : Crash} {es : List Incident} : m < n →
    Progress.Raises program limits m callers host c es result →
    GoesOn program limits host callers n result (.received callers host c :: es)

theorem GoesOn.succ {n : Nat} {es : List Incident} (h : GoesOn program limits host callers n result es) :
    GoesOn program limits host callers (n + 1) result es := by
  cases h with
  | resumed hm hconfined h => exact .resumed (Nat.lt_succ_of_lt hm) hconfined h
  | received hm h => exact .received (Nat.lt_succ_of_lt hm) h

/-- A call that waits goes on some time. -/
theorem Progress.History.waits (hprogram : program.Structured) {n : Nat} {p : Progress} {r : Run}
    {guests : List Activation} {es : List Incident}
    (h : History program limits n p es result) (hp : p = .more r) (hr : r.Confined)
    (hcallers : r.callers = guests ++ host :: callers) : ∃ above rest, es = above ++ rest ∧
      (∀ e ∈ above, callers.length < e.callers.length) ∧
      GoesOn program limits host callers n result rest := by
  induction h generalizing r guests with
  | done => cases hp
  | @step n r₀ q shown rest result hshows hhistory ih =>
    cases hp
    have hq := hshows.confined hprogram hr
    obtain ⟨store, steps, a, callers'⟩ := r₀
    obtain rfl : callers' = guests ++ host :: callers := hcallers
    -- The step leaves the call waiting, or an error comes up in it.
    have hcontinue : ∀ {guests' : List Activation} {r' : Run}, q = .more r' →
        r'.callers = guests' ++ host :: callers → (∀ e ∈ shown, callers.length < e.callers.length) →
        ∃ above rest', shown ++ rest = above ++ rest' ∧
          (∀ e ∈ above, callers.length < e.callers.length) ∧
          GoesOn program limits host callers (n + 1) result rest' := by
      intro guests' r' hq' hcallers' hshown
      obtain ⟨above, rest', rfl, habove, hgoes⟩ := ih hq' (by subst hq'; exact hq) hcallers'
      refine ⟨shown ++ above, rest', (List.append_assoc _ _ _).symm, ?_, hgoes.succ⟩
      intro e he
      exact (List.mem_append.1 he).elim (hshown e) (habove e)
    have hpasses : ∀ {c : Crash} {k : Nat}, Passes host callers c k shown q →
        ∃ above rest', shown ++ rest = above ++ rest' ∧
          (∀ e ∈ above, callers.length < e.callers.length) ∧
          GoesOn program limits host callers (n + 1) result rest' := by
      rintro c k (⟨r', guests', hq', hcallers', hshown⟩ | ⟨above, s, hshown, habove, hq'⟩)
      · exact hcontinue hq' hcallers' hshown
      · refine ⟨above, .received callers host c :: (Incident.raised c host callers ++ rest), ?_, habove,
          .received (Nat.lt_succ_self n) ⟨s, k, rest, rfl, hq' ▸ hq, hq' ▸ hhistory⟩⟩
        rw [hshown, List.append_assoc]
        rfl
    have hself : ∀ e : Incident, e.callers = guests ++ host :: callers →
        callers.length < e.callers.length := by
      intro e he
      rw [he]
      exact length_lt guests
    cases hshows with
    | executed => exact hcontinue rfl rfl (by simp)
    | called =>
      have happend : ∀ b : Activation,
          b :: (guests ++ host :: callers) = (b :: guests) ++ host :: callers := fun _ => rfl
      exact hcontinue rfl (happend _) (by simp)
    | @returned value =>
      cases guests with
      | nil =>
        refine ⟨[], rest, rfl, by simp, ?_⟩
        cases value with
        | none => exact .resumed (Nat.lt_succ_self n) hq hhistory
        | some v => exact .resumed (Nat.lt_succ_self n) hq hhistory
      | cons guest guests => cases value <;> exact hcontinue rfl rfl (by simp)
    | crashes => exact hpasses (passes_raise.above (hself _ rfl))
    | givesUp => exact hpasses (passes_resume.above (hself _ rfl))
    | jumped | left | nextHandler | jumpDone =>
      exact hcontinue rfl rfl (List.forall_mem_cons.2 ⟨hself _ rfl,
        List.forall_mem_singleton.2 (hself _ rfl)⟩)
    | crashDone => exact hpasses (passes_resume.above (hself _ rfl))

end Waiting

/-! ## In a handler -/

/-- The end of a handler: the next one begins, a jump goes on, or the call ends with an error. -/
theorem Run.Shows.of_endFinally {r : Run} {es : List Incident} {q : Progress} {p : Pending}
    {ps : List Pending} (h : r.Shows program limits es q) (hlimit : r.steps < limits.steps)
    (hi : r.current.instruction? = some .endFinally) (hp : r.current.pending = p :: ps) :
    (∃ region rest, p.rest = region :: rest ∧ es = [.ends r.callers, .begins r.callers region] ∧
      q = .more ⟨r.store, r.steps + 1,
        { r.current with pending := ps }.enterHandler region rest p.completion, r.callers⟩) ∨
    (∃ target, p.rest = [] ∧ p.completion = .jump target ∧
      es = [.ends r.callers,
        .lands r.callers { r.current with stack := [], pc := target, pending := ps }] ∧
      q = .more ⟨r.store, r.steps + 1, { r.current with stack := [], pc := target, pending := ps },
        r.callers⟩) ∨
    ∃ c, p.rest = [] ∧ p.completion = .fail c ∧
      es = .ends r.callers :: Incident.ended c r.callers ∧
      q = resume r.callers (.error c) (r.current.close r.store) (r.steps + 1) := by
  have hinstruction : ∀ {i : Instruction}, r.current.instruction? = some i → i = .endFinally :=
    fun hj => Option.some.inj (hj.symm.trans hi)
  cases h with
  | nextHandler _ _ hpending hrest =>
    obtain ⟨rfl, rfl⟩ := List.cons.inj (hpending.symm.trans hp)
    exact .inl ⟨_, _, hrest, rfl, rfl⟩
  | jumpDone _ _ hpending hrest hc =>
    obtain ⟨rfl, rfl⟩ := List.cons.inj (hpending.symm.trans hp)
    exact .inr (.inl ⟨_, hrest, hc, rfl, rfl⟩)
  | crashDone _ _ hpending hrest hc =>
    obtain ⟨rfl, rfl⟩ := List.cons.inj (hpending.symm.trans hp)
    exact .inr (.inr ⟨_, hrest, hc, rfl, rfl⟩)
  | executed _ hj hcontrol =>
    obtain rfl := hinstruction hj
    cases hcontrol
  | called _ hj | returned _ hj | jumped _ hj | left _ hj => cases hinstruction hj
  | crashes hcrashes =>
    cases hcrashes with
    | limit hle => exact absurd hlimit (Nat.not_lt.2 hle)
    | fellOff _ hj =>
      rw [hi] at hj
      cases hj
    | faulted _ hj hcontrol =>
      obtain rfl := hinstruction hj
      cases hcontrol
    | callMissing _ hj | callShort _ hj | callRefused _ hj | retEmpty _ hj | leaveUnbound _ hj =>
      cases hinstruction hj
  | givesUp hgives =>
    cases hgives with
    | stray _ _ hpending =>
      rw [hp] at hpending
      cases hpending
    | handlerReturned _ hj => cases hinstruction hj

/-- Something more is to be seen in a handler before an error comes up in it. -/
theorem Breaks.prepend {callers : List Activation} {g : Region} {u w : List Incident}
    (h : Breaks callers g w) (hu : ∀ w, Works callers g w → Works callers g (u ++ w)) :
    Breaks callers g (u ++ w) := by
  cases h with
  | here hw => exact .here (hu _ hw)
  | jump hw hleaving hinside hruns hbreaks =>
    rw [← List.append_assoc]
    exact .jump (hu _ hw) hleaving hinside hruns hbreaks

/-- The rest of a history in the handler of a region: it comes to its end, or an error comes up in
it. -/
inductive Outcome (program : Module) (limits : Limits) (callers : List Activation) (g : Region)
    (a : Activation) (n : Nat) (result : CallResult) : List Incident → Prop where
  /-- It comes to its end. -/
  | ends {m steps : Nat} {s : Store} {b : Activation} {w es : List Incident} : Works callers g w →
    m ≤ n → b.method = a.method → b.regions = a.regions → b.pending = a.pending →
    steps < limits.steps → b.instruction? = some .endFinally → Run.Confined ⟨s, steps, b, callers⟩ →
    Progress.History program limits m (.more ⟨s, steps, b, callers⟩) es result →
    Outcome program limits callers g a n result (w ++ es)
  | errs {m : Nat} {e : Incident} {b : Activation} {c : Crash} {w es : List Incident} :
    Breaks callers g w → m < n → e.error? = some (callers, b, c) → b.method = a.method →
    b.regions = a.regions → g.Handles b.pc → Progress.Raises program limits m callers b c es result →
    Outcome program limits callers g a n result (w ++ e :: es)

/-- Something more is to be seen before the end. -/
theorem Outcome.prepend {callers : List Activation} {g : Region} {a b : Activation} {m n : Nat}
    {u es : List Incident} (h : Outcome program limits callers g b m result es) (hm : m ≤ n)
    (hmethod : b.method = a.method) (hregions : b.regions = a.regions)
    (hpending : b.pending = a.pending) (hu : ∀ w, Works callers g w → Works callers g (u ++ w)) :
    Outcome program limits callers g a n result (u ++ es) := by
  cases h with
  | ends hworks hle hmethod' hregions' hpending' hlimit hi hconfined hhistory =>
    rw [← List.append_assoc]
    exact .ends (hu _ hworks) (Nat.le_trans hle hm) (hmethod'.trans hmethod)
      (hregions'.trans hregions) (hpending'.trans hpending) hlimit hi hconfined hhistory
  | errs hbreaks hlt he hmethod' hregions' hhandles hraises =>
    rw [← List.append_assoc]
    exact .errs (hbreaks.prepend hu) (Nat.lt_of_lt_of_le hlt hm) he (hmethod'.trans hmethod)
      (hregions'.trans hregions) hhandles hraises

/-- The rest of a history that begins with the handlers of a jump: all of them run and control goes on
at the target, or an error comes up in one of them. -/
inductive Arrives (program : Module) (limits : Limits) (callers : List Activation) (a : Activation)
    (target n : Nat) (result : CallResult) : List Region → List Incident → Prop where
  | lands {m steps : Nat} {s : Store} {b : Activation} {hs : List Region} {es es' : List Incident} :
    m ≤ n → Runs callers hs es → a.Lands target b → Run.Confined ⟨s, steps, b, callers⟩ →
    Progress.History program limits m (.more ⟨s, steps, b, callers⟩) es' result →
    Arrives program limits callers a target n result hs (es ++ .lands callers b :: es')
  /-- An error comes up in one of them. -/
  | errs {m : Nat} {e : Incident} {b : Activation} {c : Crash} {l gs : List Region} {g : Region}
    {es es' es'' : List Incident} : m < n → Runs callers l es → Breaks callers g es' →
    e.error? = some (callers, b, c) → b.method = a.method → b.regions = a.regions →
    g.Handles b.pc → Progress.Raises program limits m callers b c es'' result →
    Arrives program limits callers a target n result (l ++ g :: gs)
      (es ++ .begins callers g :: (es' ++ e :: es''))

/-- A handler runs before the others. -/
theorem Arrives.cons {callers : List Activation} {a : Activation} {target m n : Nat}
    {hs : List Region} {es es' : List Incident} {g : Region} (hg : Works callers g es)
    (h : Arrives program limits callers a target m result hs es') (hm : m ≤ n) :
    Arrives program limits callers a target n result (g :: hs)
      (.begins callers g :: (es ++ .ends callers :: es')) := by
  have happend : ∀ x y : List Incident, Incident.begins callers g :: (es ++ .ends callers :: (x ++ y)) =
      .begins callers g :: (es ++ .ends callers :: x) ++ y := by
    intro x y
    rw [List.cons_append, List.append_assoc, List.cons_append]
  cases h with
  | lands hle hruns hlands hconfined hhistory =>
    rw [happend]
    exact .lands (Nat.le_trans hle hm) (.cons hg hruns) hlands hconfined hhistory
  | errs hlt hruns hbreaks he hmethod hregions hhandles hraises =>
    rw [happend]
    exact .errs (Nat.lt_of_lt_of_le hlt hm) (.cons hg hruns) hbreaks he hmethod hregions hhandles
      hraises

/-- The handler of a region is over some time, in histories of a length. -/
def Finishes (program : Module) (limits : Limits) (result : CallResult) (n : Nat) : Prop :=
  ∀ {s : Store} {steps : Nat} {a : Activation} {callers : List Activation} {es : List Incident}
    {g : Region} {p : Pending} {ps : List Pending},
    Progress.History program limits n (.more ⟨s, steps, a, callers⟩) es result →
    Run.Confined ⟨s, steps, a, callers⟩ → g ∈ a.regions → g.Handles a.pc → a.pending = p :: ps →
    Outcome program limits callers g a n result es

/-- The handlers of a jump run to the target, unless an error comes up, if handlers finish in shorter
histories. -/
theorem Finishes.arrives (hprogram : program.Structured) {m : Nat} {callers : List Activation}
    {a b : Activation} {target steps : Nat} {s : Store} {h : Region} {rest : List Region}
    {es : List Incident} (hfinishes : ∀ k, k ≤ m → Finishes program limits result k)
    (hhistory : Progress.History program limits m (.more ⟨s, steps, b, callers⟩) es result)
    (hconfined : Run.Confined ⟨s, steps, b, callers⟩) (hmethod : b.method = a.method)
    (hregions : b.regions = a.regions)
    (hpending : b.pending = ⟨h.handlerStart, rest, .jump target⟩ :: a.pending)
    (hmem : ∀ g ∈ h :: rest, g ∈ b.regions) (hx : h.Handles b.pc) :
    Arrives program limits callers a target m result (h :: rest) (.begins callers h :: es) := by
  induction m using Nat.strongRecOn generalizing s steps b h rest es with
  | ind m ih =>
    have houtcome : Outcome program limits callers h b m result es :=
      hfinishes m (Nat.le_refl m) hhistory hconfined (hmem h List.mem_cons_self) hx hpending
    cases houtcome with
    | @ends k _ _ b' _ _ hworks hle hmethod' hregions' hpending' hlimit hi hconfined' hhistory' =>
      rw [hpending] at hpending'
      cases hhistory' with
      | step hshows hhistory'' =>
        have hq := hshows.confined hprogram hconfined'
        have hmethod' := hmethod'.trans hmethod
        obtain ⟨region, rest', hrest, rfl, rfl⟩ | ⟨t, hrest, ht, rfl, rfl⟩ | ⟨c, -, hc, -⟩ :=
          hshows.of_endFinally hlimit hi hpending'
        · obtain rfl : rest = region :: rest' := hrest
          have hmem' : ∀ g ∈ region :: rest', g ∈ b'.regions := by
            rw [hregions']
            exact fun g hg => hmem g (List.mem_cons_of_mem _ hg)
          have hrest : Arrives program limits callers a target _ result (region :: rest')
              (.begins callers region :: _) :=
            ih _ (by omega) (fun k hk => hfinishes k (by omega)) hhistory'' hq hmethod'
              (hregions'.trans hregions) rfl hmem'
              (hconfined'.current.structured.handles_start (hmem' region List.mem_cons_self))
          exact hrest.cons hworks (by omega)
        · obtain rfl : rest = [] := hrest
          cases ht
          have hlands : a.Lands target { b' with stack := [], pc := target, pending := a.pending } :=
            ⟨rfl, rfl, hmethod', hregions'.trans hregions, rfl⟩
          exact (Arrives.lands (Nat.le_refl _) .nil hlands hq hhistory'').cons hworks (by omega)
        · cases hc
    | errs hbreaks hlt he hmethod' hregions' hhandles hraises =>
      exact Arrives.errs (l := []) hlt .nil hbreaks he (hmethod'.trans hmethod)
        (hregions'.trans hregions) hhandles hraises

theorem Works.prepend {callers : List Activation} {g : Region} {above w : List Incident}
    (hw : Works callers g w) (habove : ∀ e ∈ above, callers.length < e.callers.length) :
    Works callers g (above ++ w) := by
  induction above with
  | nil => exact hw
  | cons e above ih =>
    obtain ⟨he, habove⟩ := List.forall_mem_cons.1 habove
    exact .above he (ih habove)

/-- The regions that a jump in a handler leaves lie in that handler. -/
theorem Activation.Confined.leaving_inside {a : Activation} (ha : a.Confined) {g : Region}
    (hg : g ∈ a.regions) (hx : g.Handles a.pc) {label : Label} {target : Nat}
    (hi : a.instruction? = some (.leave label))
    (hlabel : a.method.body.labels.offset? label = some target) :
    g.Handles target ∧ ∀ h ∈ a.leaving target, h ∈ a.regions ∧ h.Shaped ∧ h.Inside g := by
  have htarget := ha.structured.jumps g hg _ _ _ _ hx hi rfl hlabel
  refine ⟨htarget, fun h hh => ?_⟩
  obtain ⟨hmem, hleft⟩ := List.mem_filter.1 hh
  rw [Bool.and_eq_true, Bool.not_eq_true'] at hleft
  exact ⟨hmem, ha.structured.nested.shaped h hmem,
    ha.structured.nested.inside_of_leaving hg hmem hleft.1 (by simp [hleft.2]) hx htarget⟩

/-- The handler of a region is over some time. -/
theorem finishes (hprogram : program.Structured) (n : Nat) : Finishes program limits result n := by
  induction n using Nat.strongRecOn with
  | ind n ih =>
    intro s steps a callers es g p ps hhistory hconfined hg hx hpending
    have ha := hconfined.current
    have hret : a.instruction? ≠ some .ret := ha.structured.ret g hg a.pc hx
    cases hhistory with
    | @step n _ q shown rest _ hshows hhistory =>
    have hq := hshows.confined hprogram hconfined
    have hwhole := Progress.History.step hshows hhistory
    -- The handler goes on after something that has been seen.
    have hgoes : ∀ {m steps' : Nat} {s' : Store} {b : Activation} {u es' : List Incident}, m ≤ n →
        Progress.History program limits m (.more ⟨s', steps', b, callers⟩) es' result →
        Run.Confined ⟨s', steps', b, callers⟩ → b.method = a.method → b.regions = a.regions →
        b.pending = a.pending → g.Handles b.pc →
        (∀ w, Works callers g w → Works callers g (u ++ w)) →
        Outcome program limits callers g a (n + 1) result (u ++ es') := by
      intro m steps' s' b u es' hm hhistory' hconfined' hmethod hregions hpending' hx' hu
      have houtcome : Outcome program limits callers g b m result es' :=
        ih m (by omega) hhistory' hconfined' (hregions ▸ hg) hx' (hpending'.trans hpending)
      exact houtcome.prepend (by omega) hmethod hregions hpending' hu
    cases hshows with
    | executed _ hi hcontrol hexec =>
      have hsame := hexec.same
      exact hgoes (Nat.le_refl n) hhistory hq hsame.method hsame.regions hsame.pending
        (ha.stays hi hcontrol hexec g hg hx) fun _ hw => hw
    | called _ hi =>
      obtain ⟨above, rest', rfl, habove, hrest⟩ :=
        hhistory.waits hprogram rfl hq (List.nil_append _).symm
      rw [List.nil_append]
      cases hrest with
      | resumed hm hconfined' hhistory' =>
        exact hgoes (Nat.le_of_lt hm) hhistory' hconfined' rfl rfl rfl
          (ha.stays_call hi g hg hx) fun w hw => hw.prepend habove
      | received hm hraises =>
        refine .errs (.here ?_) (Nat.lt_succ_of_lt hm) rfl rfl rfl hx hraises
        have hnil : Works callers g [] := .nil
        exact List.append_nil above ▸ hnil.prepend habove
    | returned _ hi => exact absurd hi hret
    | crashes =>
      exact .errs (w := []) (.here .nil) (Nat.lt_succ_self n) rfl rfl rfl hx ⟨_, _, rest, rfl, hq, hhistory⟩
    | givesUp hgives =>
      cases hgives with
      | stray _ _ hnone =>
        rw [hpending] at hnone
        cases hnone
      | handlerReturned _ hi => exact absurd hi hret
    | @jumped label target _ hi hl hleaving =>
      obtain ⟨htarget, -⟩ := ha.leaving_inside hg hx hi hl
      refine hgoes (Nat.le_refl n) hhistory hq rfl rfl rfl htarget fun w hw => ?_
      have hruns : Runs callers (a.leaving target) [] := hleaving ▸ .nil
      exact .jump hruns (by simp [hleaving]) ⟨rfl, rfl, rfl, rfl, rfl⟩ hw
    | @left label target region rest' _ hi hl hleaving =>
      obtain ⟨htarget, hinside⟩ := ha.leaving_inside hg hx hi hl
      have hmem : ∀ h ∈ region :: rest', h ∈ a.regions :=
        fun h hh => (hinside h (hleaving ▸ hh)).1
      have harrives : Arrives program limits callers a target n result (region :: rest')
          (.begins callers region :: rest) :=
        Finishes.arrives hprogram (fun k hk => ih k (by omega)) hhistory hq rfl rfl rfl hmem
          (ha.structured.handles_start (hmem region List.mem_cons_self))
      generalize hseen : Incident.begins callers region :: rest = seen at harrives
      show Outcome program limits callers g a (n + 1) result (.leaves callers a target ::
        (.begins callers region :: rest))
      rw [hseen]
      rw [← hleaving] at harrives
      generalize hhandlers : a.leaving target = handlers at harrives
      cases harrives with
      | @lands m _ _ b _ es es' hm hruns hlands hconfined' hhistory' =>
        have houtcome := hgoes (u := .leaves callers a target :: (es ++ [.lands callers b])) hm hhistory'
          hconfined' hlands.method hlands.regions hlands.pending (hlands.pc ▸ htarget) fun w hw => by
            rw [List.cons_append, List.append_assoc]
            exact .jump (hhandlers ▸ hruns) (fun h hh => (hinside h hh).2) hlands hw
        rwa [List.cons_append, List.append_assoc] at houtcome
      | @errs m e b c l gs h es es' es'' hm hruns hbreaks he hmethod hregions hhandles hraises =>
        have hh : h ∈ a.leaving target := by simp [hhandlers]
        obtain ⟨-, hshaped, hin⟩ := hinside h hh
        have houtcome : Outcome program limits callers g a (n + 1) result
            (.leaves callers a target :: (es ++ .begins callers h :: es') ++ e :: es'') :=
          .errs (.jump .nil hhandlers (fun k hk => (hinside k hk).2) hruns hbreaks)
            (Nat.lt_succ_of_lt hm) he hmethod hregions (hin.handles hshaped hhandles) hraises
        rwa [List.cons_append, List.append_assoc] at houtcome
    | nextHandler hlimit hi | jumpDone hlimit hi | crashDone hlimit hi =>
      exact .ends (w := []) .nil (Nat.le_refl _) rfl rfl rfl hlimit hi hconfined hwhole

/-! ## The handlers of an error -/

/-- The rest of a history that begins when a call has ended with an error: the error comes up in the
call that waits for it, or it is what the run ends with. -/
def Incident.Escapes (result : CallResult) (c : Crash) : List Activation → List Incident → Prop
  | [], es => es = [] ∧ result = .error c
  | caller :: callers, es => ∃ rest, es = .received callers caller c :: rest

theorem escapes_of_ended {callers : List Activation} {c : Crash} {s : Store} {n steps : Nat}
    {es : List Incident}
    (h : Progress.History program limits n (Run.resume callers (.error c) s steps) es result) :
    ∃ rest, Incident.ended c callers ++ es = .exits callers c :: rest ∧
      Incident.Escapes result c callers rest := by
  cases callers with
  | nil =>
    cases h
    exact ⟨[], rfl, rfl, rfl⟩
  | cons caller callers =>
    rw [Incident.ended_cons]
    exact ⟨_, rfl, _, rfl⟩

/-- What is to be seen from an error on. -/
def Unwound (callers : List Activation) (hs : List Region) (c : Crash) (result : CallResult)
    (es : List Incident) : Prop :=
  ∃ u d rest, es = u ++ .exits callers d :: rest ∧ Unwinds callers hs c u d ∧
    Incident.Escapes result d callers rest

theorem Unwound.next {callers : List Activation} {g : Region} {hs : List Region} {c : Crash}
    {w es : List Incident} (hg : Works callers g w) (h : Unwound callers hs c result es) :
    Unwound callers (g :: hs) c result (.begins callers g :: (w ++ .ends callers :: es)) := by
  obtain ⟨u, d, rest, rfl, hunwinds, hescapes⟩ := h
  refine ⟨_, d, rest, ?_, .next hg hunwinds, hescapes⟩
  rw [List.cons_append, List.append_assoc, List.cons_append]

theorem Unwound.again {callers : List Activation} {g : Region} {hs inner : List Region} {c d : Crash}
    {w es : List Incident} {e : Incident} {b : Activation} (hg : Breaks callers g w)
    (he : e.error? = some (callers, b, d)) (hcovering : b.covering = inner ++ hs)
    (hinner : ∀ h ∈ inner, h.Shaped ∧ h.Inside g) (h : Unwound callers (inner ++ hs) d result es) :
    Unwound callers (g :: hs) c result (.begins callers g :: (w ++ e :: es)) := by
  obtain ⟨u, d, rest, rfl, hunwinds, hescapes⟩ := h
  refine ⟨_, d, rest, ?_, .again hg he hcovering hinner hunwinds, hescapes⟩
  rw [List.cons_append, List.append_assoc, List.cons_append]

/-- The handlers of an error run, if they do so for errors in shorter histories. -/
theorem unwound_of_handler (hprogram : program.Structured) {m : Nat} {callers : List Activation}
    {b : Activation} {steps : Nat} {s : Store} {h : Region} {hs : List Region} {c : Crash}
    {ps : List Pending} {es : List Incident}
    (hraises : ∀ k, k < m → ∀ {a : Activation} {d : Crash} {es : List Incident},
      Progress.Raises program limits k callers a d es result → a.method.Structured a.regions →
      Unwound callers a.covering d result es)
    (hhistory : Progress.History program limits m (.more ⟨s, steps, b, callers⟩) es result)
    (hconfined : Run.Confined ⟨s, steps, b, callers⟩) (hh : h ∈ b.regions)
    (henclosing : enclosing b.regions h = hs)
    (hpending : b.pending = ⟨h.handlerStart, hs, .fail c⟩ :: ps) (hx : h.Handles b.pc) :
    Unwound callers (h :: hs) c result (.begins callers h :: es) := by
  induction m using Nat.strongRecOn generalizing s steps b h hs es with
  | ind m ih =>
    have hstructured := hconfined.current.structured
    have houtcome : Outcome program limits callers h b m result es :=
      finishes hprogram m hhistory hconfined hh hx hpending
    cases houtcome with
    | @ends k _ _ b' w _ hworks hle hmethod' hregions' hpending' hlimit hi hconfined' hhistory' =>
      rw [hpending] at hpending'
      cases hhistory' with
      | step hshows hhistory'' =>
        have hq := hshows.confined hprogram hconfined'
        obtain ⟨region, rest', hrest, rfl, rfl⟩ | ⟨t, -, ht, -⟩ | ⟨d, hrest, hd, rfl, rfl⟩ :=
          hshows.of_endFinally hlimit hi hpending'
        · obtain rfl : hs = region :: rest' := hrest
          have hregion : region ∈ b.regions := mem_of_enclosing henclosing List.mem_cons_self
          have hrest : Unwound callers (region :: rest') c result (.begins callers region :: _) :=
            ih _ (by omega) (fun k hk => hraises k (by omega)) hhistory'' hq
              (hregions'.symm ▸ hregion)
              (hregions'.symm ▸ hstructured.nested.enclosing_of_enclosing hh (l := []) henclosing)
              rfl (hstructured.handles_start hregion)
          exact hrest.next hworks
        · cases ht
        · obtain rfl : hs = [] := hrest
          cases hd
          obtain ⟨rest, hes, hescapes⟩ := escapes_of_ended hhistory''
          have hnone : Unwound callers [] c result (Incident.ended c callers ++ _) :=
            ⟨[], c, rest, hes, .nil, hescapes⟩
          exact hnone.next hworks
    | @errs k e b' d w es hbreaks hlt he hmethod' hregions' hhandles hraises' =>
      obtain ⟨inner, hcovering, hinside⟩ := hstructured.nested.covering_of_handles hh hhandles
      rw [henclosing] at hcovering
      have hcovering' : b'.covering = inner ++ hs := by
        show covering b'.regions b'.pc = _
        rw [hregions', hcovering]
      have hunwound : Unwound callers b'.covering d result es :=
        hraises k hlt hraises' (by rw [hmethod', hregions']; exact hstructured)
      rw [hcovering'] at hunwound
      refine hunwound.again hbreaks he hcovering' fun g hg => ⟨?_, hinside g hg⟩
      exact hstructured.nested.shaped g (mem_of_covering hcovering (List.mem_append_left _ hg))

/-- After an error has come up in a call, the handlers around its place run; then the call ends. -/
theorem Progress.Raises.unwound (hprogram : program.Structured) {n : Nat}
    {callers : List Activation} {a : Activation} {c : Crash} {es : List Incident}
    (h : Raises program limits n callers a c es result) (ha : a.method.Structured a.regions) :
    Unwound callers a.covering c result es := by
  induction n using Nat.strongRecOn generalizing a c es with
  | ind n ih =>
    obtain ⟨s, steps, rest, rfl, hconfined, hhistory⟩ := h
    cases hcovering : a.covering with
    | nil =>
      rw [Incident.raised_nil hcovering]
      rw [Run.raise_of_covering_nil hcovering] at hhistory
      obtain ⟨rest, hes, hescapes⟩ := escapes_of_ended hhistory
      exact ⟨[], c, rest, hes, .nil, hescapes⟩
    | cons h hs =>
      rw [Incident.raised_cons hcovering]
      rw [Run.raise_of_covering_cons hcovering] at hconfined hhistory
      have hh : h ∈ a.regions := mem_of_covering hcovering List.mem_cons_self
      exact unwound_of_handler hprogram (fun k hk _ _ _ hraises ha => ih k hk hraises ha) hhistory
        hconfined hh (ha.nested.enclosing_of_covering (l := []) hcovering) rfl (ha.handles_start hh)

end ManagedC
