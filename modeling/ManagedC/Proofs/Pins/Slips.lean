import ManagedC.Proofs.Pins.Tallies

/-!
# Stores to pinned variables that fault

A store to a pinned variable lets go of the old array before it pins the new one. If the new value is a
pointer to nowhere, which only a host can bring into the machine, the store faults and the variable
keeps its old value, but the pin is undone and counted. From then on the array is pinned less often
than variables hold it, and the end of the call takes a pin away that another call may hold. Main
statement: `Session.Hosted.fault_pinned`.
-/

namespace ManagedC

open Activation (pinTarget? unpinOld heldBy)

namespace Session

/-- The sessions that a host can bring about: it starts the program and calls methods in any order,
with values of any kind. -/
inductive Hosted : Session → Prop where
  | fresh {program : Module} {limits : Limits} : Hosted { program := program, limits := limits }
  | started {s s' : Session} {args : List String} {result : Except Failure Int32} :
    Hosted s → s.runEntry args = some (result, s') → Hosted s'
  | called {s s' : Session} {name : String} {arguments : List Value} {result : CallResult} :
    Hosted s → s.call name arguments = some (result, s') → Hosted s'

/-- A run opens because the host starts the program or calls a method. -/
inductive Opens (s : Session) : Run → Prop where
  | call {name : String} {method : Method} {arguments : List Value} {current : Activation} :
    s.program.findMethod? name = some method →
    Activation.enter method arguments s.store.depth s.limits.depth = .ok current →
    Opens s ⟨s.store.opened, s.steps, current, []⟩
  /-- The program is started, and it takes no arguments. -/
  | entry {entry : Method} {current : Activation} : s.program.entryMethod? = some entry →
    entry.parameters = [] → Activation.enter entry [] s.store.depth s.limits.depth = .ok current →
    Opens s ⟨s.store.opened, s.steps, current, []⟩
  /-- The program is started with arguments. -/
  | entryArguments {entry : Method} {only : MethodParameter} {args : List String}
    {current : Activation} : s.program.entryMethod? = some entry → entry.parameters = [only] →
    Activation.enter entry [(hostArguments args s.store).1] (hostArguments args s.store).2.depth
      s.limits.depth = .ok current →
    Opens s ⟨(hostArguments args s.store).2.opened, s.steps, current, []⟩

/-- A run that the host opened is in progress, and so far it took its steps where it may. -/
inductive Underway (s : Session) (P : Run → Prop) : Run → Prop where
  | opens {r : Run} : s.Opens r → Underway s P r
  | step {r r' : Run} : Underway s P r → P r → r.step s.program s.limits = .more r' →
    Underway s P r'

variable {s s' : Session} {r : Run} {R : Nat → Nat → Prop} {P : Run → Prop}

theorem Underway.mono {Q : Run → Prop} (h : s.Underway P r) (hPQ : ∀ r, P r → Q r) :
    s.Underway Q r := by
  induction h with
  | opens hr => exact .opens hr
  | step _ hP hstep ih => exact .step ih (hPQ _ hP) hstep

/-! ## The tally of a session -/

theorem Underway.after {n : Nat} {r r' : Run} (h : s.Underway P r)
    (hafter : r.after? s.program s.limits n = some r')
    (hP : ∀ k < n, ∀ r'' ∈ r.after? s.program s.limits k, P r'') : s.Underway P r' := by
  induction n generalizing r with
  | zero =>
    cases hafter
    exact h
  | succ n ih =>
    rw [Run.after?] at hafter
    split at hafter
    · rename_i hstep
      have hr : P r := hP 0 (Nat.succ_pos n) r rfl
      refine ih (.step h hr hstep) hafter fun k hk r'' hr'' => hP (k + 1) (by omega) r'' ?_
      rw [Run.after?, hstep]
      exact hr''
    · cases hafter

/-- A run that opens finds the tally as the session left it. -/
theorem Opens.tallied (hR : Balances R) (h : s.Opens r) (hs : Tallied R [] s.store) :
    Tallied R r.frames r.store := by
  cases h with
  | call _ henter | entry _ _ henter => exact Run.tallied_enter (hs.atDepth _) henter
  | entryArguments _ _ henter =>
    exact Run.tallied_enter ((hs.keep hR (keepsPins_hostArguments _ _)).atDepth _) henter

/-- A run keeps the tally as far as it does not slip. -/
theorem Underway.tallied (hR : Balances R) (h : s.Underway P r) (hs : Tallied R [] s.store)
    (hslip : ∀ r, P r → r.slips = true → ∀ n m, R n m → R (n - 1) m) :
    Tallied R r.frames r.store := by
  induction h with
  | opens hr => exact hr.tallied hR hs
  | @step r r' _ hP hstep ih =>
    have hsteps : Run.StepsTo s.program s.limits r (r.step s.program s.limits) := Run.stepsTo_step r
    rw [hstep] at hsteps
    exact Run.tallied_stepsTo hR ih (hslip r hP) hsteps

/-- To its end no array is pinned more often than variables hold it. -/
theorem tallied_of_ends {program : Module} {limits : Limits} {p : Progress} {o : Ending}
    (h : p.Ends program limits o) (hp : p.Tallied (· ≤ ·)) : Tallied (· ≤ ·) [] o.2.1 := by
  induction h with
  | done => exact hp
  | more _ ih =>
    exact ih (Run.tallied_stepsTo .le hp (fun _ n m (h : n ≤ m) => by omega) (Run.stepsTo_step _))

theorem tallied_of_invoke {method : Method} {arguments : List Value} {result : CallResult}
    (hs : Tallied (· ≤ ·) [] s.store) (h : s.invoke method arguments = some (result, s')) :
    Tallied (· ≤ ·) [] s'.store := by
  unfold invoke at h
  split at h
  · cases h
    exact hs
  · rename_i current henter
    obtain ⟨⟨result, t, steps⟩, hrun, h⟩ := Option.map_eq_some_iff.1 h
    cases h
    exact tallied_of_ends (.of_iterate hrun) (Run.tallied_enter (hs.atDepth _) henter)

/-- Between the calls of a host nothing is pinned. -/
theorem Hosted.tallied (h : s.Hosted) : Tallied (· ≤ ·) [] s.store := by
  induction h with
  | fresh =>
    refine ⟨by simp, fun id n hn => ?_⟩
    obtain ⟨element, elements, ho⟩ := Heap.pins?_eq_some.1 hn
    simp at ho
  | called _ hcall ih =>
    unfold Session.call at hcall
    split at hcall
    · cases hcall
      exact ih
    · exact tallied_of_invoke ih hcall
  | @started s s' args result _ hrun ih =>
    unfold runEntry at hrun
    split at hrun
    · cases hrun
      exact ih
    split at hrun
    · obtain ⟨⟨r, t⟩, ht, hrun⟩ := Option.map_eq_some_iff.1 hrun
      cases hrun
      exact tallied_of_invoke ih ht
    · split at hrun
      · obtain ⟨⟨r, t⟩, ht, hrun⟩ := Option.map_eq_some_iff.1 hrun
        cases hrun
        exact tallied_of_invoke (s := { s with store := (hostArguments args s.store).2 })
          (ih.keep .le (keepsPins_hostArguments args s.store)) ht
      · cases hrun
        exact ih
    · cases hrun
      exact ih

/-- So a run that does not slip finds every array pinned as often as variables hold it. -/
theorem Hosted.exact (hs : s.Hosted) (hr : s.Underway (fun r => r.slips = false) r) :
    Tallied (· = ·) r.frames r.store := by
  have hidle := hs.tallied
  refine hr.tallied .eq ⟨hidle.calls, fun id n hn => ?_⟩ fun r hfalse htrue => ?_
  · have : n ≤ heldBy [] (· == id) := hidle.pins id n hn
    exact Nat.le_zero.1 this
  · rw [hfalse] at htrue
    cases htrue

theorem Hosted.bounded (hs : s.Hosted) (hr : s.Underway P r) :
    Tallied (· ≤ ·) r.frames r.store :=
  hr.tallied .le hs.tallied fun _ _ _ n m (h : n ≤ m) => by omega

end Session

/-- What the end of a call leaves after a store that faulted: where every array was pinned as often as
variables held it, now it is pinned as often as the callers hold it, but the array that the variable
points into once less. -/
theorem Tallied.release_of_fault {callers : List Activation} {a : Activation} {s t : Store}
    {old : Value} (h : Tallied (· = ·) (a :: callers) s) (hunpin : Yields (unpinOld old) s () t)
    (ha : a.Anchored t.heap)
    (hheld : ∀ id, pinTarget? old = some id → 0 < a.held (· == id)) (id n : Nat)
    (hn : (a.close t).heap.pins? id = some n) :
    n = heldBy callers (· == id) - if pinTarget? old = some id then 1 else 0 := by
  rw [(Activation.releases ha).pins, Activation.pins?_unpinOld hunpin, Option.map_map] at hn
  obtain ⟨m, hm, rfl⟩ := Option.map_eq_some_iff.1 hn
  have hpins : m = heldBy (a :: callers) (· == id) := h.pins id m hm
  rw [Activation.heldBy_cons] at hpins
  simp only [Function.comp_apply, Value.weight_eq]
  have := hheld id
  split <;> omega

/-- A store to a pinned variable faults, in a session that a host brought about with values of any
kind. Then the value is a pointer to something that is no array, and the host passed it. If the
variable points into no array, nothing has changed. If it points into one, then that array was
unpinned, and that was counted and logged; nothing else has changed. The variable keeps its value in
any case, and the end of the call undoes a pin for each pinned variable that points into an array. No
array is pinned more often than variables hold it. As long as no store over a pointer into an array
has faulted, the end of the call leaves each array pinned as often as its callers hold it, but the
array that was unpinned by the fault once less. -/
theorem Session.Hosted.fault_pinned {s : Session} (hs : s.Hosted) {r : Run}
    (hr : s.Underway (fun _ => True) r) {a : Activation} (ha : a ∈ r.frames) {slot : UInt16}
    {declared : LocalVariable} (hdeclared : a.method.locals[slot.toNat]? = some declared)
    (hpinned : declared.pinned = true) {v : Value} {rest : List Value} (hstack : a.stack = v :: rest)
    {f : Fault} {t : Store} (hf : Fails (a.execute (.storeLocal slot)) r.store f t) :
    (∃ id, pinTarget? v = some id ∧ r.store.heap.pins? id = none ∧
      f = .typeMismatch (.notPinnable id)) ∧
    ¬ (s.Driven ∧ s.Running r) ∧
    (match pinTarget? (a.locals.getD slot.toNat .null) with
      | none => t = r.store
      | some id => r.store.heap.unpin id = .ok t.heap ∧
          t.stats = { r.store.stats with unpins := r.store.stats.unpins + 1 } ∧
          t.events = r.store.events.push .unpinned) ∧
    t.Releases a.held (a.close t) ∧
    (∀ id n, t.heap.pins? id = some n → n ≤ heldBy r.frames (· == id)) ∧
    (a = r.current →
      (r.current.instruction? = some (.storeLocal slot) → r.steps < s.limits.steps →
        r.step s.program s.limits = Run.raise t (r.steps + 1) (a.crash f) a r.callers) ∧
      (s.Underway (fun r => r.slips = false) r →
        ∀ id n, (a.close t).heap.pins? id = some n → n = heldBy r.callers (· == id) -
          if pinTarget? (a.locals.getD slot.toNat .null) = some id then 1 else 0)) := by
  have htallied := hs.bounded hr
  have hanchored := htallied.calls a ha
  obtain ⟨hunpin, id, hid, hnone, rfl⟩ :=
    Activation.fails_storeLocal_pinned hanchored hdeclared hpinned hstack hf
  have hpins := Activation.pins?_unpinOld hunpin
  have hanchored' : a.Anchored t.heap := hanchored.mono fun v hv => hv.of_map hpins
  refine ⟨⟨id, hid, hnone, rfl⟩, ?driven, ?store, Activation.releases hanchored', ?bounded, ?exit⟩
  case driven =>
    rintro ⟨hdriven, hrunning⟩
    have horderly := (hrunning.disciplined hdriven.disciplined).calls a ha
    have hsome := horderly.stack v (by rw [hstack]; exact List.mem_cons_self) id hid
    rw [hnone] at hsome
    cases hsome
  case store =>
    rcases Activation.yields_unpinOld hunpin with ⟨hnone, rfl⟩ | ⟨old, heap, hold, hheap, rfl⟩
    · rw [hnone]
    · rw [hold]
      exact ⟨hheap, rfl, rfl⟩
  case bounded =>
    intro k n hn
    rw [hpins] at hn
    obtain ⟨m, hm, rfl⟩ := Option.map_eq_some_iff.1 hn
    have : m ≤ heldBy r.frames (· == k) := htallied.pins k m hm
    exact Nat.le_trans (Nat.sub_le _ _) this
  case exit =>
    rintro rfl
    refine ⟨fun hi hlimit => (Run.StepsTo.faulted hlimit hi rfl hf).step_eq, fun hsteady => ?_⟩
    refine Tallied.release_of_fault (hs.exact hsteady) hunpin hanchored' fun k hk => ?_
    exact Activation.held_pos hdeclared hpinned (hanchored.getElem?_locals hdeclared) hk (by simp)

/-- A program whose only method pins an array and then stores what it was passed over the pointer. -/
def Module.misdirected : Module where
  name := "misdirected"
  methods := #[{
    name := "f"
    attributes := ⟨true, true⟩
    returnType := .void
    parameters := [⟨some "p", .pointer .int32⟩]
    locals := #[⟨some "x", .pointer .int32, true⟩]
    body := { instructions := #[.constInt32 1, .newArray .int32, .constInt32 0,
      .elementAddress .int32, .storeLocal 0, .loadArgument 0, .storeLocal 0, .ret] } }]

/-- A run of that method before the second store, when it was passed a pointer into an array that does
not exist. -/
def Run.misdirected : Run where
  store := {
    heap := { objects := #[.array .int32 #[.int 0] 1] }
    stats := { pins := 1 }
    events := #[.pinned]
    depth := 1 }
  steps := 6
  current := {
    method := Module.misdirected.methods[0]!
    regions := []
    arguments := #[.pointer ⟨.array 9, 0, true⟩]
    locals := #[.pointer ⟨.array 0, 0, true⟩]
    stack := [.pointer ⟨.array 9, 0, true⟩]
    pc := 6
    pending := [] }
  callers := []

/-- A host brings that run about, and nothing has slipped so far. -/
theorem Run.underway_misdirected :
    ({ program := .misdirected } : Session).Underway (fun r => r.slips = false) .misdirected := by
  have hopens : ∃ r, ({ program := .misdirected } : Session).Opens r ∧
      (r.after? .misdirected {} 6).map (fun r => (r.store, r.steps, r.current, r.callers)) =
        some (misdirected.store, misdirected.steps, misdirected.current, misdirected.callers) ∧
      ∀ k < 6, ∀ r' ∈ r.after? .misdirected {} k, r'.slips = false :=
    ⟨_, @Session.Opens.call _ "f" _ [.pointer ⟨.array 9, 0, true⟩] _ rfl rfl, by decide +kernel,
      by decide +kernel⟩
  obtain ⟨r, hr, hafter, hslips⟩ := hopens
  obtain ⟨⟨store, steps, current, callers⟩, hafter, heq⟩ := Option.map_eq_some_iff.1 hafter
  cases heq
  exact (Session.Underway.opens hr).after hafter hslips

namespace Session

/-- The store that comes next faults there, and the array loses the pin that the variable holds. -/
theorem slip_misdirected :
    let s : Session := { program := .misdirected }
    let r := Run.misdirected
    s.Hosted ∧ s.Underway (fun _ => True) r ∧
      r.current.held (· == 0) = 1 ∧ r.store.heap.pins? 0 = some 1 ∧
      ∃ t, Fails (r.current.execute (.storeLocal 0)) r.store (.typeMismatch (.notPinnable 9)) t ∧
        t.heap.pins? 0 = some 0 ∧ t.stats ≠ r.store.stats ∧ t.events ≠ r.store.events := by
  intro s r
  refine ⟨.fresh, Run.underway_misdirected.mono fun _ _ => trivial, by decide +kernel, rfl,
    { heap := { objects := #[.array .int32 #[.int 0] 0] }
      stats := { pins := 1, unpins := 1 }
      events := #[.pinned, .unpinned]
      depth := 1 }, rfl, rfl, by decide, by decide⟩

/-- The end of the call finds no pin to undo, and counts one all the same. -/
theorem Hosted.fault_pinned_misdirected :
    let r := Run.misdirected
    ∃ t, Fails (r.current.execute (.storeLocal 0)) r.store (.typeMismatch (.notPinnable 9)) t ∧
      t.stats.unpins = r.store.stats.unpins + 1 ∧
      (r.current.close t).stats.frameExitUnpins = t.stats.frameExitUnpins + 1 ∧
      ∀ id n, (r.current.close t).heap.pins? id = some n → n = 0 := by
  intro r
  obtain ⟨hs, hr, hheld, -, t, hf, -⟩ := slip_misdirected
  have hdeclared : r.current.method.locals[(0 : UInt16).toNat]? =
      some ⟨some "x", .pointer .int32, true⟩ := rfl
  obtain ⟨-, -, hstore, hreleases, -, hcurrent⟩ :=
    Hosted.fault_pinned hs hr List.mem_cons_self hdeclared rfl rfl hf
  refine ⟨t, hf, ?_, ?_, fun id n hn => ?_⟩
  · exact congrArg Stats.unpins hstore.2.1
  · exact congrArg Stats.frameExitUnpins hreleases.stats
  · have hleft : n = 0 - _ := (hcurrent rfl).2 Run.underway_misdirected id n hn
    rw [hleft, Nat.zero_sub]

end Session

end ManagedC
