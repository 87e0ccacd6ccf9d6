import ManagedC.Proofs.Unwinding.Conduct

/-!
# Every handler runs once

In a run of a structured program the handlers of a jump are those of the regions that it leaves, and the
handlers of an error are those of the regions around the place where it comes up. They run from the
innermost to the outermost, and each runs once, even if errors come up in handlers. Main statement:
`Session.invoke_tryFinally`.
-/

namespace ManagedC

/-! ## Which handlers begin -/

/-- The region whose handler begins in a call for which others wait. -/
def Incident.begun? (callers : List Activation) : Incident → Option Region
  | .begins callers' g => if callers' = callers then some g else none
  | _ => none

/-- The regions whose handlers begin in a call, one after another. -/
def begun (callers : List Activation) (es : List Incident) : List Region :=
  es.filterMap (·.begun? callers)

variable {callers : List Activation} {g h : Region} {es es' : List Incident} {e : Incident} {x : Nat}
  {hs : List Region} {c d : Crash}

theorem begun_append : begun callers (es ++ es') = begun callers es ++ begun callers es' :=
  List.filterMap_append

theorem begun_begins : begun callers (.begins callers g :: es) = g :: begun callers es := by
  have h : (Incident.begins callers g).begun? callers = some g := if_pos rfl
  unfold begun
  rw [List.filterMap_cons, h]

theorem begun_other (h : e.begun? callers = none) : begun callers (e :: es) = begun callers es := by
  unfold begun
  rw [List.filterMap_cons, h]

theorem begun_error {b : Activation} (h : e.error? = some (callers, b, c)) :
    e.begun? callers = none := by
  cases e with
  | begins => cases h
  | _ => rfl

theorem begun_above (h : callers.length < e.callers.length) : e.begun? callers = none := by
  cases e with
  | begins callers' g =>
    unfold Incident.begun?
    refine if_neg fun heq => ?_
    rw [← heq] at h
    exact absurd h (Nat.lt_irrefl _)
  | _ => rfl

mutual

/-- In a handler only handlers inside it begin. -/
theorem Works.begun_inside : ∀ {g : Region} {es : List Incident}, Works callers g es →
    ∀ k ∈ begun callers es, k.Inside g
  | _, _, .nil => fun _ hk => nomatch hk
  | _, _, .above he hw => by
    rw [begun_other (begun_above he)]
    exact hw.begun_inside
  | _, _, .jump hruns hinside _ hw => by
    intro k hk
    rw [begun_other rfl, begun_append, begun_other rfl] at hk
    rcases List.mem_append.1 hk with hk | hk
    · rcases hruns.begun_inside k hk with hk | ⟨g', hg', hk⟩
      · exact (hinside k hk).2
      · exact hk.trans (hinside g' hg').2 (hinside g' hg').1
    · exact hw.begun_inside k hk

/-- Of handlers that run one after another, and inside these, handlers begin. -/
theorem Runs.begun_inside : ∀ {hs : List Region} {es : List Incident}, Runs callers hs es →
    ∀ k ∈ begun callers es, k ∈ hs ∨ ∃ g ∈ hs, k.Inside g
  | _, _, .nil => fun _ hk => nomatch hk
  | _, _, .cons hw hruns => by
    intro k hk
    rw [begun_begins, begun_append, begun_other rfl] at hk
    rcases List.mem_cons.1 hk with rfl | hk
    · exact .inl List.mem_cons_self
    · rcases List.mem_append.1 hk with hk | hk
      · exact .inr ⟨_, List.mem_cons_self, hw.begun_inside k hk⟩
      · rcases hruns.begun_inside k hk with hk | ⟨g', hg', hk⟩
        · exact .inl (List.mem_cons_of_mem _ hk)
        · exact .inr ⟨g', List.mem_cons_of_mem _ hg', hk⟩

end

theorem Breaks.begun_inside (h : Breaks callers g es) : ∀ k ∈ begun callers es, k.Inside g := by
  induction h with
  | here hw => exact hw.begun_inside
  | @jump g h a target l gs w es es' hw hleaving hinside hruns _ ih =>
    have hmem : ∀ k ∈ l ++ [h], k.Shaped ∧ k.Inside g := by
      intro k hk
      refine hinside k ?_
      rw [hleaving]
      rcases List.mem_append.1 hk with hk | hk
      · exact List.mem_append_left _ hk
      · exact List.mem_append_right _ (List.mem_singleton.1 hk ▸ List.mem_cons_self)
    obtain ⟨hshaped, hinside'⟩ := hmem h (by simp)
    intro k hk
    rw [begun_append, begun_other rfl, begun_append, begun_begins] at hk
    rcases List.mem_append.1 hk with hk | hk
    · exact hw.begun_inside k hk
    · rcases List.mem_append.1 hk with hk | hk
      · rcases hruns.begun_inside k hk with hk | ⟨g', hg', hk⟩
        · exact (hmem k (List.mem_append_left _ hk)).2
        · obtain ⟨hshaped, hinside'⟩ := hmem g' (List.mem_append_left _ hg')
          exact hk.trans hinside' hshaped
      · rcases List.mem_cons.1 hk with rfl | hk
        · exact hinside'
        · exact (ih k hk).trans hinside' hshaped

/-- The region protects an instruction, or it lies in the handler of one that does. -/
def Region.Near (x : Nat) (g : Region) : Prop :=
  g.Shaped ∧ (g.protects x = true ∨ ∃ k : Region, k.Shaped ∧ k.protects x = true ∧ g.Inside k)

namespace Region.Near

/-- What lies in the handler of such a region does not protect the instruction. -/
theorem not_protects (hg : g.Near x) (hh : h.Inside g) : ¬ h.protects x = true := by
  obtain ⟨hshaped, hx | ⟨k, hk, hx, hin⟩⟩ := hg
  · exact hh.not_protects hshaped hx
  · exact (hh.trans hin hshaped).not_protects hk hx

theorem inside (hg : g.Near x) (hshaped : h.Shaped) (hh : h.Inside g) : h.Near x := by
  obtain ⟨hgs, hx | ⟨k, hk, hx, hin⟩⟩ := hg
  · exact ⟨hshaped, .inr ⟨g, hgs, hx, hh⟩⟩
  · exact ⟨hshaped, .inr ⟨k, hk, hx, hh.trans hin hgs⟩⟩

/-- Of a region and what lies in its handler, only the region may protect the instruction. -/
theorem filter_cons (hg : g.Near x) {gs rest : List Region} (hgs : ∀ k ∈ gs, k.Inside g)
    (hrest : rest.filter (·.protects x) = hs.filter (·.protects x)) :
    (g :: (gs ++ rest)).filter (·.protects x) = (g :: hs).filter (·.protects x) := by
  have hnone : gs.filter (·.protects x) = [] :=
    List.filter_eq_nil_iff.2 fun k hk => hg.not_protects (hgs k hk)
  rw [List.filter_cons, List.filter_cons, List.filter_append, hnone, List.nil_append, hrest]

end Region.Near

/-- Of the regions that protect an instruction, those begin whose handlers run. -/
theorem Runs.begun_filter (h : Runs callers hs es) (hnear : ∀ g ∈ hs, g.Near x) :
    (begun callers es).filter (·.protects x) = hs.filter (·.protects x) := by
  induction hs generalizing es with
  | nil =>
    cases h
    rfl
  | cons g hs ih =>
    cases h with
    | cons hw hruns =>
      obtain ⟨hg, hrest⟩ := List.forall_mem_cons.1 hnear
      rw [begun_begins, begun_append, begun_other rfl]
      exact hg.filter_cons hw.begun_inside (ih hruns hrest)

/-- Of the regions that protect an instruction, those begin whose handlers run for an error, whatever
errors replace it. -/
theorem Unwinds.begun_filter (h : Unwinds callers hs c es d) (hnear : ∀ g ∈ hs, g.Near x) :
    (begun callers es).filter (·.protects x) = hs.filter (·.protects x) := by
  induction h with
  | nil => rfl
  | next hw _ ih =>
    obtain ⟨hg, hrest⟩ := List.forall_mem_cons.1 hnear
    rw [begun_begins, begun_append, begun_other rfl]
    exact hg.filter_cons hw.begun_inside (ih hrest)
  | @again g hs inner _ _ _ _ _ _ _ hbreaks he _ hinner _ ih =>
    obtain ⟨hg, hrest⟩ := List.forall_mem_cons.1 hnear
    have hnear' : ∀ k ∈ inner ++ hs, k.Near x := List.forall_mem_append.2
      ⟨fun k hk => hg.inside (hinner k hk).1 (hinner k hk).2, hrest⟩
    rw [begun_begins, begun_append, begun_other (begun_error he)]
    refine hg.filter_cons hbreaks.begun_inside ?_
    have hnone : inner.filter (·.protects x) = [] :=
      List.filter_eq_nil_iff.2 fun k hk => hg.not_protects (hinner k hk).2
    rw [ih hnear', List.filter_append, hnone, List.nil_append]

/-! ## Where incidents come from -/

namespace Incident

/-- An incident of a kind is the first of a list if the others are not of that kind. -/
theorem eq_first {P : Incident → Prop} {before after rest : List Incident} {first : Incident}
    (h : before ++ e :: after = first :: rest) (hrest : ∀ e' ∈ rest, ¬ P e') (he : P e) :
    before = [] ∧ e = first ∧ after = rest := by
  cases before with
  | nil =>
    obtain ⟨rfl, rfl⟩ := List.cons.inj h
    exact ⟨rfl, rfl, rfl⟩
  | cons _ before =>
    have hmem : e ∈ before ++ e :: after := List.mem_append_right _ List.mem_cons_self
    exact absurd he (hrest e ((List.cons.inj h).2 ▸ hmem))

/-- Where a call ends with an error, nothing is to be seen but that it comes up in calls that wait, and
that a handler begins. -/
theorem mem_ended {callers : List Activation} (h : e ∈ ended c callers) :
    e.origin? = none ∧ ∀ callers a target, e ≠ .leaves callers a target := by
  induction callers with
  | nil =>
    obtain rfl := List.mem_singleton.1 h
    exact ⟨rfl, nofun⟩
  | cons caller callers ih =>
    rw [ended_cons] at h
    rcases List.mem_cons.1 h with rfl | h
    · exact ⟨rfl, nofun⟩
    · rcases List.mem_cons.1 h with rfl | h
      · exact ⟨rfl, nofun⟩
      · unfold raised at h
        cases hcovering : caller.covering with
        | nil =>
          rw [hcovering] at h
          exact ih h
        | cons region rest =>
          rw [hcovering] at h
          obtain rfl := List.mem_singleton.1 h
          exact ⟨rfl, nofun⟩

theorem mem_raised {a : Activation} (h : e ∈ raised c a callers) :
    e.origin? = none ∧ ∀ callers a target, e ≠ .leaves callers a target := by
  unfold raised at h
  cases hcovering : a.covering with
  | nil =>
    rw [hcovering] at h
    exact mem_ended h
  | cons region rest =>
    rw [hcovering] at h
    obtain rfl := List.mem_singleton.1 h
    exact ⟨rfl, nofun⟩

/-- An error that comes up where a call ends with one does so in a call that waits, and the machine goes
on with it there. -/
theorem received_of_ended {steps : Nat} {waiting : List Activation} {a : Activation} :
    ∀ {callers : List Activation} {s : Store} {before after : List Incident},
    ended c callers = before ++ e :: after → e.error? = some (waiting, a, d) →
    d = c ∧ e = .received waiting a c ∧ a ∈ callers ∧ after = raised c a waiting ∧
      ∃ t, Run.resume callers (.error c) s steps = Run.raise t steps c a waiting := by
  intro callers
  induction callers with
  | nil =>
    intro s before after h he
    have hmem : e ∈ ended c [] := by simp [h]
    obtain rfl := List.mem_singleton.1 hmem
    cases he
  | cons caller callers ih =>
    intro s before after h he
    rw [ended_cons] at h
    match before, h with
    | [], h =>
      obtain ⟨rfl, -⟩ := List.cons.inj h
      cases he
    | [_], h =>
      obtain ⟨rfl, rfl⟩ := List.cons.inj (List.cons.inj h).2
      cases he
      exact ⟨rfl, rfl, List.mem_cons_self, rfl, s, rfl⟩
    | _ :: _ :: before, h =>
      have h := (List.cons.inj (List.cons.inj h).2).2
      cases hcovering : caller.covering with
      | nil =>
        rw [raised_nil hcovering] at h
        obtain ⟨hd, hreceived, hmem, hafter, t, hresume⟩ := ih (s := caller.close s) h he
        refine ⟨hd, hreceived, List.mem_cons_of_mem _ hmem, hafter, t, ?_⟩
        rw [← hresume]
        exact Run.raise_of_covering_nil hcovering
      | cons region rest =>
        rw [raised_cons hcovering] at h
        have hmem : e ∈ [Incident.begins callers region] := by
          rw [h]
          exact List.mem_append_right _ List.mem_cons_self
        obtain rfl := List.mem_singleton.1 hmem
        cases he

/-- The same, where an error has come up. -/
theorem received_of_raised {steps : Nat} {waiting callers : List Activation} {a b : Activation}
    {s : Store} {before after : List Incident} (h : raised c b callers = before ++ e :: after)
    (he : e.error? = some (waiting, a, d)) :
    d = c ∧ e = .received waiting a c ∧ a ∈ callers ∧ after = raised c a waiting ∧
      ∃ t, Run.raise s steps c b callers = Run.raise t steps c a waiting := by
  cases hcovering : b.covering with
  | nil =>
    rw [raised_nil hcovering] at h
    rw [Run.raise_of_covering_nil hcovering]
    exact received_of_ended h he
  | cons region rest =>
    rw [raised_cons hcovering] at h
    have hmem : e ∈ [Incident.begins callers region] := by
      rw [h]
      exact List.mem_append_right _ List.mem_cons_self
    obtain rfl := List.mem_singleton.1 hmem
    cases he

end Incident

namespace Run.Shows

variable {program : Module} {limits : Limits} {r : Run} {q : Progress} {before after : List Incident}
  {waiting : List Activation} {a : Activation}

/-- An error comes up in the call in progress, where it is a fault, or in one that waits. -/
theorem of_error (h : r.Shows program limits (before ++ e :: after) q)
    (he : e.error? = some (waiting, a, c)) :
    (e = .fault r.callers r.current c ∧ (∃ t steps, r.Crashes program limits t steps c) ∨
      e = .received waiting a c ∧ a ∈ r.callers) ∧
    after = Incident.raised c a waiting ∧ ∃ t steps, q = raise t steps c a waiting := by
  generalize hes : before ++ e :: after = es at h
  have hmem : e ∈ es := by simp [← hes]
  cases h with
  | executed | called | returned => cases hmem
  | @crashes t steps c' hcrashes =>
    cases before with
    | nil =>
      obtain ⟨rfl, rfl⟩ := List.cons.inj hes
      cases he
      exact ⟨.inl ⟨rfl, t, steps, hcrashes⟩, rfl, t, steps, rfl⟩
    | cons first before =>
      obtain ⟨rfl, hreceived, hcaller, hafter, u, hraise⟩ :=
        Incident.received_of_raised (List.cons.inj hes).2.symm he
      exact ⟨.inr ⟨hreceived, hcaller⟩, hafter, u, _, hraise⟩
  | givesUp | crashDone =>
    cases before with
    | nil =>
      obtain ⟨rfl, -⟩ := List.cons.inj hes
      cases he
    | cons first before =>
      obtain ⟨rfl, hreceived, hcaller, hafter, u, hresume⟩ :=
        Incident.received_of_ended (List.cons.inj hes).2.symm he
      exact ⟨.inr ⟨hreceived, hcaller⟩, hafter, u, _, hresume⟩
  | jumped | left | nextHandler | jumpDone =>
    rcases List.mem_cons.1 hmem with rfl | hmem
    · cases he
    · obtain rfl := List.mem_singleton.1 hmem
      cases he

/-- An error comes about when an instruction faults or a call is given up, before anything else is to
be seen of the step. -/
theorem of_origin (h : r.Shows program limits (before ++ e :: after) q) (he : e.origin? = some c) :
    before = [] ∧ (e = .fault r.callers r.current c ∨ e = .givenUp r.callers r.current c ∧
      r.GivesUp limits c ∧ after = Incident.ended c r.callers ∧
      q = resume r.callers (.error c) (r.current.close r.store) (r.steps + 1)) := by
  generalize hes : before ++ e :: after = es at h
  have hmem : e ∈ es := by simp [← hes]
  have hsome : e.origin? ≠ none := by simp [he]
  cases h with
  | executed | called | returned => cases hmem
  | crashes =>
    obtain ⟨hbefore, rfl, -⟩ := Incident.eq_first (P := (·.origin? ≠ none)) hes
      (fun e he => not_not_intro (Incident.mem_raised he).1) hsome
    cases he
    exact ⟨hbefore, .inl rfl⟩
  | givesUp hgives =>
    obtain ⟨hbefore, rfl, rfl⟩ := Incident.eq_first (P := (·.origin? ≠ none)) hes
      (fun e he => not_not_intro (Incident.mem_ended he).1) hsome
    cases he
    exact ⟨hbefore, .inr ⟨rfl, hgives, rfl, rfl⟩⟩
  | crashDone =>
    obtain ⟨-, rfl, -⟩ := Incident.eq_first (P := (·.origin? ≠ none)) hes
      (fun e he => not_not_intro (Incident.mem_ended he).1) hsome
    cases he
  | jumped | left | nextHandler | jumpDone =>
    rcases List.mem_cons.1 hmem with rfl | hmem
    · cases he
    · obtain rfl := List.mem_singleton.1 hmem
      cases he

/-- A jump out of regions is made by the call in progress: it leaves none, or the first handler
begins. -/
theorem of_leaves {target : Nat}
    (h : r.Shows program limits (before ++ .leaves waiting a target :: after) q) :
    before = [] ∧ waiting = r.callers ∧ a = r.current ∧
      (∃ label, a.instruction? = some (.leave label) ∧
        a.method.body.labels.offset? label = some target) ∧
      (a.leaving target = [] ∧
          after = [.lands waiting { a with stack := [], pc := target }] ∨
        ∃ region rest, a.leaving target = region :: rest ∧ after = [.begins waiting region] ∧
          q = .more ⟨r.store, r.steps + 1, a.enterHandler region rest (.jump target), waiting⟩) := by
  generalize hes : before ++ .leaves waiting a target :: after = es at h
  have hmem : .leaves waiting a target ∈ es := by simp [← hes]
  cases h with
  | executed | called | returned => cases hmem
  | crashes =>
    rcases List.mem_cons.1 hmem with heq | hmem
    · cases heq
    · exact absurd rfl ((Incident.mem_raised hmem).2 _ _ _)
  | givesUp | crashDone =>
    rcases List.mem_cons.1 hmem with heq | hmem
    · cases heq
    · exact absurd rfl ((Incident.mem_ended hmem).2 _ _ _)
  | nextHandler | jumpDone =>
    rcases List.mem_cons.1 hmem with heq | hmem
    · cases heq
    · cases List.mem_singleton.1 hmem
  | jumped _ hi hl hleaving =>
    obtain ⟨rfl, heq, rfl⟩ := Incident.eq_first (P := (∃ a, · = .leaves waiting a target)) hes
      (by simp) ⟨_, rfl⟩
    cases heq
    exact ⟨rfl, rfl, rfl, ⟨_, hi, hl⟩, .inl ⟨hleaving, rfl⟩⟩
  | left _ hi hl hleaving =>
    obtain ⟨rfl, heq, rfl⟩ := Incident.eq_first (P := (∃ a, · = .leaves waiting a target)) hes
      (by simp) ⟨_, rfl⟩
    cases heq
    exact ⟨rfl, rfl, rfl, ⟨_, hi, hl⟩, .inr ⟨_, _, hleaving, rfl, rfl⟩⟩

end Run.Shows

/-! ## Jumps and errors -/

/-- What is to be seen after a jump out of regions in a call. -/
inductive Departs (callers : List Activation) (a : Activation) (target : Nat) :
    List Incident → Prop where
  /-- The handlers of the regions that are left run one after another, each of them once, and control
  goes on at the target. -/
  | lands {seen rest : List Incident} {b : Activation} : Runs callers (a.leaving target) seen →
    (begun callers seen).filter (·.protects a.pc) = a.leaving target → a.Lands target b →
    Departs callers a target (seen ++ .lands callers b :: rest)
  /-- Some of them have run, and in the next one an error comes up, at a place with the regions around
  that handler around it. -/
  | errs {l gs inner : List Region} {g : Region} {seen w rest : List Incident} {e : Incident}
    {b : Activation} {c : Crash} : a.leaving target = l ++ g :: gs → Runs callers l seen →
    Breaks callers g w →
    (begun callers (seen ++ .begins callers g :: w)).filter (·.protects a.pc) = l ++ [g] →
    e.error? = some (callers, b, c) → b.covering = inner ++ enclosing a.regions g →
    (∀ h ∈ inner, h.Inside g) →
    Departs callers a target (seen ++ .begins callers g :: (w ++ e :: rest))

/-- What is to be seen after an error has come up in a call: the handlers of the regions around the
place run, each of them once, and the call ends with the error that there is then, which comes up in the
call that waits for it. -/
structure Recovers (callers : List Activation) (a : Activation) (c : Crash) (result : CallResult)
    (seen : List Incident) (d : Crash) (rest : List Incident) : Prop where
  /-- The handlers run. -/
  unwinds : Unwinds callers a.covering c seen d
  /-- Each of them begins once. -/
  once : (begun callers seen).filter (·.protects a.pc) = a.covering
  /-- The error comes up in the call that waits. -/
  escapes : Incident.Escapes result d callers rest

/-- What is to be seen in a run with respect to regions and handlers. -/
structure TryFinally (es : List Incident) (result : CallResult) : Prop where
  /-- The handlers of the regions that a jump leaves run, the inner ones first. -/
  leaves : ∀ {before after : List Incident} {callers : List Activation} {a : Activation}
    {target : Nat}, es = before ++ .leaves callers a target :: after →
    (a.leaving target).Pairwise Region.Under ∧ Departs callers a target after
  /-- The handlers of the regions around an error run, the inner ones first. -/
  errors : ∀ {before after : List Incident} {e : Incident} {callers : List Activation}
    {a : Activation} {c : Crash}, es = before ++ e :: after → e.error? = some (callers, a, c) →
    a.covering.Pairwise Region.Under ∧ ∃ seen d rest,
      after = seen ++ .exits callers d :: rest ∧ Recovers callers a c result seen d rest
  /-- A fault bears the place of its instruction, unless it is a call that cannot begin. -/
  faults : ∀ {before after : List Incident} {callers : List Activation} {a : Activation} {c : Crash},
    es = before ++ .fault callers a c :: after → (∃ f, c = a.crash f) ∨
      ∃ ref, ∃ m : Method, ∃ f, a.instruction? = some (.call ref) ∧ c = ⟨m.name, 0, f⟩
  /-- The error of a call comes up at its call instruction. -/
  received : ∀ {before after : List Incident} {callers : List Activation} {a : Activation} {c : Crash},
    es = before ++ .received callers a c :: after → ∃ ref, a.instruction? = some (.call ref)
  /-- A call is given up only where a handler ends while none is running. -/
  givesUp : ∀ {before after : List Incident} {callers : List Activation} {a : Activation} {c : Crash},
    es = before ++ .givenUp callers a c :: after → a.instruction? = some .endFinally ∧ a.pending = [] ∧
      ∃ rest, after = .exits callers c :: rest ∧ Incident.Escapes result c callers rest
  /-- The error that escapes is the one that came about last. -/
  escapes : ∀ c, result = .error c ↔ Incident.latest? es = some c
  /-- Errors after the first come about while a handler runs because of an error. -/
  later : ∀ {before after : List Incident} {e : Incident} {c : Crash}, es = before ++ e :: after →
    e.origin? = some c → Incident.latest? before ≠ none → ∃ callers a,
      (e = .fault callers a c ∨ e = .givenUp callers a c) ∧
        ∃ b ∈ a :: callers, ∃ p ∈ b.pending, ∃ c', p.completion = .fail c'

/-- The regions around a place are listed from the innermost to the outermost. -/
theorem Nested.pairwise_covering {regions : List Region} (hr : Nested regions) :
    (covering regions x).Pairwise Region.Under := by
  have hclosed : (covering regions x).Pairwise Region.ClosedBefore := hr.closed.filter _
  refine hclosed.imp_of_mem fun {g h} hg hh hgh => ?_
  obtain ⟨hgm, hgx⟩ := List.mem_filter.1 hg
  obtain ⟨hhm, hhx⟩ := List.mem_filter.1 hh
  have := Region.protects_iff.1 hgx
  have := Region.protects_iff.1 hhx
  have hgs := hr.shaped g hgm
  have := hgs.order
  have := hgs.handler
  have := (hr.shaped h hhm).order
  rcases hgh with hfront | hunder | ⟨_, _⟩
  · omega
  · exact hunder
  · omega

/-- The regions around a place protect it. -/
theorem Nested.near_covering {regions : List Region} (hr : Nested regions) :
    ∀ g ∈ covering regions x, g.Near x := by
  intro g hg
  obtain ⟨hmem, hx⟩ := List.mem_filter.1 hg
  exact ⟨hr.shaped g hmem, .inl hx⟩

theorem filter_covering (regions : List Region) :
    (covering regions x).filter (·.protects x) = covering regions x :=
  List.filter_eq_self.2 fun _ hg => (List.mem_filter.1 hg).2

namespace Progress.Raises

variable {program : Module} {limits : Limits} {n : Nat} {a : Activation} {result : CallResult}

/-- After an error has come up in a call, the handlers around its place run, each of them once. -/
theorem recovers (hprogram : program.Structured) (h : Raises program limits n callers a c es result)
    (ha : a.method.Structured a.regions) : ∃ seen d rest,
      es = seen ++ .exits callers d :: rest ∧ Recovers callers a c result seen d rest := by
  obtain ⟨seen, d, rest, hes, hunwinds, hescapes⟩ := h.unwound hprogram ha
  refine ⟨seen, d, rest, hes, hunwinds, ?_, hescapes⟩
  rw [hunwinds.begun_filter ha.nested.near_covering]
  exact filter_covering a.regions

end Progress.Raises

section

variable {program : Module} {limits : Limits} {r : Run} {n m : Nat} {a : Activation}
  {result : CallResult} {before after rest : List Incident} {q : Progress} {target : Nat}

theorem Activation.mem_leaving (h : g ∈ a.leaving target) :
    g ∈ a.regions ∧ g.protects a.pc = true := by
  obtain ⟨hmem, hleft⟩ := List.mem_filter.1 h
  rw [Bool.and_eq_true] at hleft
  exact ⟨hmem, hleft.1⟩

/-- The regions that a jump leaves are listed from the innermost to the outermost. -/
theorem Activation.Confined.pairwise_leaving (ha : a.Confined) (target : Nat) :
    (a.leaving target).Pairwise Region.Under := by
  have hpairs := @Nested.pairwise_covering a.pc a.regions ha.structured.nested
  obtain ⟨outer, hcovering, -⟩ := @Nested.covering_eq_leaving a.regions a.pc target ha.structured.nested
  rw [hcovering] at hpairs
  exact (List.pairwise_append.1 hpairs).1

/-- What is to be seen after a jump out of regions. -/
theorem Arrives.departs (h : Arrives program limits callers a target n result (a.leaving target) es)
    (ha : a.Confined) : Departs callers a target es := by
  have hnear : ∀ g ∈ a.leaving target, g.Near a.pc ∧ g.protects a.pc = true := by
    intro g hg
    obtain ⟨hmem, hx⟩ := Activation.mem_leaving hg
    exact ⟨⟨ha.structured.nested.shaped g hmem, .inl hx⟩, hx⟩
  have honce : ∀ {l : List Region} {seen : List Incident}, (∀ g ∈ l, g ∈ a.leaving target) →
      Runs callers l seen → (begun callers seen).filter (·.protects a.pc) = l := by
    intro l seen hl hruns
    rw [hruns.begun_filter fun g hg => (hnear g (hl g hg)).1]
    exact List.filter_eq_self.2 fun g hg => (hnear g (hl g hg)).2
  generalize hleaving : a.leaving target = handlers at h
  cases h with
  | lands _ hruns hlands =>
    subst hleaving
    exact .lands hruns (honce (fun _ hg => hg) hruns) hlands
  | @errs _ _ b _ l gs g seen w _ _ hruns hbreaks he hmethod hregions hhandles =>
    have hmem : ∀ k ∈ l ++ [g], k ∈ a.leaving target := by
      rw [hleaving]
      simp +contextual [or_imp]
    have hg : g ∈ a.leaving target := hmem g (by simp)
    obtain ⟨inner, hcovering, hinside⟩ :=
      ha.structured.nested.covering_of_handles (Activation.mem_leaving hg).1 hhandles
    refine .errs hleaving hruns hbreaks ?_ he (by rw [← hcovering, ← hregions]; rfl) hinside
    have hnone : (begun callers w).filter (·.protects a.pc) = [] :=
      List.filter_eq_nil_iff.2 fun k hk => (hnear g hg).1.not_protects (hbreaks.begun_inside k hk)
    rw [begun_append, begun_begins, List.filter_append,
      honce (fun k hk => hmem k (List.mem_append_left _ hk)) hruns, List.filter_cons,
      if_pos (hnear g hg).2, hnone]

/-- The step that an incident belongs to, and what came before and comes after it. -/
theorem Progress.History.step_of (hprogram : program.Structured)
    (h : History program limits n (.more r) es result) (hr : r.Confined)
    (hnone : (Progress.more r).error? = none) (hes : es = before ++ e :: after) :
    ∃ m r' q skipped front back rest, r'.Confined ∧
      (Progress.more r').error? = Incident.latest? skipped ∧
      r'.Shows program limits (front ++ e :: back) q ∧ q.Confined ∧
      History program limits m q rest result ∧ before = skipped ++ front ∧ after = back ++ rest := by
  have hstart : (Progress.more r).Confined ∧ (Progress.more r).error? = Incident.latest? [] :=
    ⟨hr, hnone⟩
  obtain ⟨m, r', q, skipped, front, back, rest, ⟨hconfined, herror⟩, hshows, hhistory, hbefore, hafter⟩ :=
    h.split (I := fun p front => p.Confined ∧ p.error? = Incident.latest? front)
      (fun r es q front ⟨hconfined, herror⟩ hshows => ⟨hshows.confined hprogram hconfined, by
        rw [hshows.error_eq, herror, Incident.latest_append]⟩) hstart hes
  exact ⟨m, r', q, skipped, front, back, rest, hconfined, herror, hshows,
    hshows.confined hprogram hconfined, hhistory, hbefore, hafter⟩

/-- What is to be seen after the step of a jump out of regions. -/
theorem Run.Shows.departs (hprogram : program.Structured) {front back : List Incident}
    (h : r.Shows program limits (front ++ .leaves callers a target :: back) q) (hr : r.Confined)
    (hq : q.Confined) (hhistory : Progress.History program limits m q rest result) :
    a.Confined ∧ Departs callers a target (back ++ rest) := by
  obtain ⟨rfl, rfl, rfl, ⟨label, hi, hl⟩, ⟨hleaving, rfl⟩ | ⟨region, handlers, hleaving, rfl, rfl⟩⟩ :=
    h.of_leaves
  · have hruns : Runs r.callers (r.current.leaving target) [] := hleaving ▸ .nil
    exact ⟨hr.current, .lands hruns hleaving.symm ⟨rfl, rfl, rfl, rfl, rfl⟩⟩
  · have hmem : ∀ g ∈ region :: handlers, g ∈ r.current.regions := fun g hg =>
      (Activation.mem_leaving (hleaving ▸ hg : g ∈ r.current.leaving target)).1
    have harrives : Arrives program limits r.callers r.current target m result (region :: handlers)
        (.begins r.callers region :: rest) :=
      Finishes.arrives hprogram (fun k _ => finishes hprogram k) hhistory hq rfl rfl rfl hmem
        (hr.current.structured.handles_start (hmem region List.mem_cons_self))
    rw [← hleaving] at harrives
    exact ⟨hr.current, harrives.departs hr.current⟩

/-- A run of a structured program treats regions and handlers in this way. -/
theorem Progress.History.tryFinally (hprogram : program.Structured)
    (h : History program limits n (.more r) es result) (hr : r.Confined)
    (hnone : (Progress.more r).error? = none) : TryFinally es result where
  leaves hes := by
    obtain ⟨m, r', q, skipped, front, back, rest, hconfined, -, hshows, hq, hhistory, rfl, rfl⟩ :=
      h.step_of hprogram hr hnone hes
    obtain ⟨ha, hdeparts⟩ := hshows.departs hprogram hconfined hq hhistory
    exact ⟨ha.pairwise_leaving _, hdeparts⟩
  errors {before after e callers a c} hes he := by
    obtain ⟨m, r', q, skipped, front, back, rest, hconfined, -, hshows, hq, hhistory, rfl, rfl⟩ :=
      h.step_of hprogram hr hnone hes
    obtain ⟨hplace, rfl, s, steps, rfl⟩ := hshows.of_error he
    have ha : a.Confined := by
      rcases hplace with ⟨rfl, -⟩ | ⟨-, hmem⟩
      · cases he
        exact hconfined.current
      · exact (hconfined.callers _ hmem).1
    have hraises : Raises program limits m callers a c (Incident.raised c a callers ++ rest) result :=
      ⟨s, steps, rest, rfl, hq, hhistory⟩
    exact ⟨ha.structured.nested.pairwise_covering, hraises.recovers hprogram ha.structured⟩
  faults hes := by
    obtain ⟨m, r', q, skipped, front, back, rest, -, -, hshows, -⟩ := h.step_of hprogram hr hnone hes
    obtain ⟨⟨heq, t, k, hcrashes⟩ | ⟨heq, -⟩, -⟩ := hshows.of_error rfl
    · cases heq
      cases hcrashes with
      | callRefused _ hi => exact .inr ⟨_, _, _, hi, rfl⟩
      | _ => exact .inl ⟨_, rfl⟩
    · cases heq
  received hes := by
    obtain ⟨m, r', q, skipped, front, back, rest, hconfined, -, hshows, -⟩ :=
      h.step_of hprogram hr hnone hes
    obtain ⟨⟨heq, -⟩ | ⟨-, hmem⟩, -⟩ := hshows.of_error rfl
    · cases heq
    · exact (hconfined.callers _ hmem).2
  givesUp hes := by
    obtain ⟨m, r', q, skipped, front, back, rest, hconfined, -, hshows, -, hhistory, rfl, rfl⟩ :=
      h.step_of hprogram hr hnone hes
    obtain ⟨-, heq | ⟨heq, hgives, rfl, rfl⟩⟩ := hshows.of_origin rfl
    · cases heq
    · cases heq
      cases hgives with
      | stray _ hi hp => exact ⟨hi, hp, escapes_of_ended hhistory⟩
      | handlerReturned _ hi _ hp =>
        obtain ⟨g, hg, hx⟩ := hconfined.current.handles hp
        exact absurd hi (hconfined.current.structured.ret g hg _ hx)
  escapes c := by
    have herror := h.error_eq {} 0
    rw [hnone, Option.or_none] at herror
    rw [← herror]
    cases result with
    | ok v => exact ⟨nofun, nofun⟩
    | error d =>
      show _ ↔ some d = some c
      rw [Except.error.injEq, Option.some.injEq]
  later hes he hlatest := by
    obtain ⟨m, r', q, skipped, front, back, rest, hconfined, herror, hshows, -, -, rfl, -⟩ :=
      h.step_of hprogram hr hnone hes
    obtain ⟨rfl, hcases⟩ := hshows.of_origin he
    rw [List.append_nil, ← herror] at hlatest
    obtain ⟨d, hd⟩ := Option.ne_none_iff_exists'.1 hlatest
    obtain ⟨p, hp, hfail⟩ := List.exists_of_findSome?_eq_some hd
    obtain ⟨b, hb, hp⟩ := List.mem_flatMap.1 hp
    refine ⟨_, _, hcases.imp_right fun h => h.1, b, hb, p, hp, d, ?_⟩
    cases hc : p.completion with
    | jump target =>
      rw [hc] at hfail
      cases hfail
    | fail d' =>
      rw [hc] at hfail
      cases hfail
      rfl

end

/-- Every run of a method of a structured program ends, and treats regions and handlers in this way. -/
theorem Session.invoke_tryFinally {s : Session} (hprogram : s.program.Structured) {m : Method}
    (hm : m ∈ s.program.methods) {arguments : List Value} {a : Activation}
    (henter : Activation.enter m arguments s.store.depth s.limits.depth = .ok a) :
    ∃ result s', s.invoke m arguments = some (result, s') ∧
      (∃ n es, (Progress.more ⟨s.store.opened, s.steps, a, []⟩).History s.program s.limits n es
        result) ∧
      ∀ n es result',
        (Progress.more ⟨s.store.opened, s.steps, a, []⟩).History s.program s.limits n es result' →
        result' = result ∧ TryFinally es result := by
  have hforward : ∀ m ∈ s.program.methods, m.Forward := fun m hm regions hregions g hg =>
    ((hprogram m hm regions hregions).nested.shaped g hg).order
  obtain ⟨⟨result, store, steps⟩, hends⟩ :=
    @Run.exists_ends s.program s.limits a m arguments s.store s.steps hforward hm henter
  refine ⟨result, { s with store := store, steps := steps }, invoke_of_ends hm henter hends,
    Progress.History.exists_of_ends hends, ?_⟩
  intro n es result' hhistory
  obtain ⟨store', steps', hends'⟩ := hhistory.ends
  obtain ⟨rfl, -⟩ := Prod.mk.inj (hends'.unique hends)
  obtain ⟨-, -, regions, hregions, rfl⟩ := Activation.enter_eq_ok.1 henter
  exact ⟨rfl, hhistory.tryFinally hprogram
    ⟨⟨hprogram m hm regions hregions, .idle⟩, by simp⟩ rfl⟩

/-! ## Programs with handlers -/

/-- The instruction may stand in the handler of a region: it does not return, and control stays in the
handler, or the handler ends there. -/
def Method.keeps (m : Method) (g : Region) (x : Nat) : Bool :=
  match m.body.instructions[x]? with
  | none => true
  | some i => i != .ret &&
    i.target?.all (fun label => (m.body.labels.offset? label).all fun target => g.Handles target) &&
    (i.isTerminator || g.Handles (x + 1))

/-- A method is structured if its regions are nested and its handlers have such instructions. -/
theorem Method.structured_of_keeps {m : Method} {regions : List Region} (hr : Nested regions)
    (hkeeps : ∀ g ∈ regions, ∀ k < g.handlerEnd - g.handlerStart, m.keeps g (g.handlerStart + k) = true) :
    m.Structured regions := by
  have hinstruction : ∀ g ∈ regions, ∀ x i, g.Handles x → m.body.instructions[x]? = some i →
      i ≠ .ret ∧ (∀ label target, i.target? = some label →
        m.body.labels.offset? label = some target → g.Handles target) ∧
      (i.isTerminator = false → g.Handles (x + 1)) := by
    intro g hg x i ⟨hlow, hhigh⟩ hi
    have h := hkeeps g hg (x - g.handlerStart) (by omega)
    rw [Nat.add_sub_cancel' hlow] at h
    unfold keeps at h
    rw [hi] at h
    simp only [Bool.and_eq_true, bne_iff_ne, Option.all_eq_true, Bool.or_eq_true,
      decide_eq_true_eq] at h
    obtain ⟨⟨hret, hjumps⟩, hfalls⟩ := h
    refine ⟨hret, fun label target hlabel htarget => hjumps label hlabel target htarget, fun hi => ?_⟩
    exact hfalls.resolve_left (by simp [hi])
  exact ⟨hr, fun g hg x hx hi => (hinstruction g hg x _ hx hi).1 rfl,
    fun g hg x i label target hx hi => (hinstruction g hg x i hx hi).2.1 label target,
    fun g hg x i hx hi => (hinstruction g hg x i hx hi).2.2⟩

/-- A method that divides by zero. -/
def Method.dividing : Method where
  name := "dividing"
  attributes := ⟨true, true⟩
  returnType := .int32
  parameters := []
  locals := #[]
  body := { instructions := #[.constInt32 1, .constInt32 0, .binary .div, .ret] }

/-- A method that calls it inside two protected bodies. The handler of the inner one divides by zero
too. -/
def Method.guarded : Method where
  name := "guarded"
  attributes := ⟨true, true⟩
  returnType := .void
  parameters := []
  locals := #[]
  body := {
    instructions := #[.call ⟨"dividing", .int32, []⟩, .leave 2, .constInt32 1, .constInt32 0,
      .binary .rem, .pop, .endFinally, .leave 4, .nop, .endFinally, .ret]
    labels := ⟨[(0, 0), (1, 2), (2, 7), (3, 8), (4, 10)], by decide⟩
    handlers := [⟨0, 1, 1, 2⟩, ⟨0, 3, 3, 4⟩] }

/-- A program of these two. -/
def Module.guarded : Module := { name := "guarded", methods := #[.dividing, .guarded] }

theorem Module.structured_guarded : Module.guarded.Structured := by
  intro m hm regions hregions
  have hcases : m = .dividing ∨ m = .guarded := by simpa [guarded] using hm
  rcases hcases with rfl | rfl
  · obtain rfl : [] = regions := Option.some.inj hregions
    exact Method.structured_of_keeps ⟨by simp, .nil⟩ (by simp)
  · obtain rfl : [⟨0, 2, 2, 7⟩, ⟨0, 8, 8, 10⟩] = regions := Option.some.inj hregions
    refine Method.structured_of_keeps ⟨?_, by decide⟩ (by decide)
    rintro g hg
    have hcases : g = ⟨0, 2, 2, 7⟩ ∨ g = ⟨0, 8, 8, 10⟩ := by simpa using hg
    rcases hcases with rfl | rfl
    · exact ⟨by decide, by decide, by decide⟩
    · exact ⟨by decide, by decide, by decide⟩

/-- A call of that method. -/
def Activation.guarded : Activation :=
  ⟨.guarded, [⟨0, 2, 2, 7⟩, ⟨0, 8, 8, 10⟩], #[], #[], [], 0, []⟩

/-- The inner handler of that method replaces the error of the method that it calls, and the outer one
runs all the same. -/
theorem Session.invoke_guarded : ∃ s' n es,
    let s : Session := { program := .guarded }
    s.invoke .guarded [] = some (.error ⟨"guarded", 4, .divideByZero⟩, s') ∧
      (Progress.more ⟨s.store.opened, 0, .guarded, []⟩).History s.program s.limits n es
        (.error ⟨"guarded", 4, .divideByZero⟩) ∧
      TryFinally es (.error ⟨"guarded", 4, .divideByZero⟩) ∧
      Incident.latest? es = some ⟨"guarded", 4, .divideByZero⟩ := by
  have hmem : Method.guarded ∈ Module.guarded.methods := by simp [Module.guarded]
  have henter : Activation.enter .guarded [] 0 256 = .ok .guarded :=
    Activation.enter_eq_ok.2 ⟨rfl, by decide, [⟨0, 2, 2, 7⟩, ⟨0, 8, 8, 10⟩], rfl, by
      simp [Method.guarded, Activation.guarded]⟩
  obtain ⟨result, s', hinvoke, ⟨n, es, hhistory⟩, hall⟩ := @Session.invoke_tryFinally
    { program := .guarded } Module.structured_guarded .guarded hmem [] .guarded henter
  have hresult : (({ program := .guarded } : Session).invoke .guarded []).map (·.1) =
      some (.error ⟨"guarded", 4, .divideByZero⟩) := by
    decide +kernel
  rw [hinvoke] at hresult
  obtain rfl := Option.some.inj hresult
  obtain ⟨-, htry⟩ := hall n es _ hhistory
  exact ⟨s', n, es, hinvoke, hhistory, htry, (htry.escapes _).1 rfl⟩

end ManagedC
