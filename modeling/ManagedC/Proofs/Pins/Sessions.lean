import ManagedC.Proofs.Pins.Discipline
import ManagedC.Proofs.Run.Depth

/-!
# Pins over the life of a session

A host starts a program and calls its methods, in any order. Whatever the program is and however its
calls end, the pins in the store are those that the calls in progress hold, and none are left once the
call from outside has ended. Main statements: a step keeps the discipline (`Run.disciplined_step`), and
every session that a host can bring about is disciplined (`Session.Driven.pins_held`).
-/

namespace ManagedC

open Activation (pinTarget? heldBy)

/-- A pinned variable of the call points into an array. -/
def Activation.Pins (a : Activation) (id : Nat) : Prop :=
  ∃ (slot : Nat) (declared : LocalVariable) (v : Value), a.method.locals[slot]? = some declared ∧
    declared.pinned = true ∧ a.locals[slot]? = some v ∧ pinTarget? v = some id

namespace Run

/-- The calls in progress, the latest first. -/
def frames (r : Run) : List Activation := r.current :: r.callers

/-- The next step of the machine may unpin an array that it finds in a store: at a store over a pinned
variable, or when calls end, the latest first, at each of their variables in turn. -/
inductive Unpins (r : Run) : Store → Nat → Prop where
  /-- A variable of the call in progress gets a new value. -/
  | overwritten {id : Nat} : r.current.Pins id → Unpins r r.store id
  /-- Calls end, perhaps because the instruction faulted, which may have changed the store. -/
  | ended {s : Store} {gone rest : List Activation} {a : Activation}
    {before after : List (LocalVariable × Value)} {declared : LocalVariable} {v : Value} {id : Nat} :
    (s = r.store ∨ ∃ i f, r.current.instruction? = some i ∧ i.isControl = false ∧
      Fails (r.current.execute i) r.store f s) →
    r.frames = gone ++ a :: rest →
    a.method.locals.toList.zip a.locals.toList = before ++ (declared, v) :: after →
    declared.pinned = true → pinTarget? v = some id →
    Unpins r (before.foldl Activation.releaseSlot (gone.foldl (fun s a => a.close s) s).closed) id

end Run

namespace Session

/-- The sessions that a host can bring about: it starts the program and calls methods in any order, and
its pointers into arrays point into arrays that exist. -/
inductive Driven : Session → Prop where
  | fresh {program : Module} {limits : Limits} : Driven { program := program, limits := limits }
  | started {s s' : Session} {args : List String} {result : Except Failure Int32} :
    Driven s → s.runEntry args = some (result, s') → Driven s'
  | called {s s' : Session} {name : String} {arguments : List Value} {result : CallResult} :
    Driven s → (∀ v ∈ arguments, s.store.heap.Knows v) →
    s.call name arguments = some (result, s') → Driven s'

/-- A run begins because the host starts the program or calls a method. -/
inductive Begins (s : Session) : Run → Prop where
  | call {name : String} {method : Method} {arguments : List Value} {current : Activation} :
    (∀ v ∈ arguments, s.store.heap.Knows v) → s.program.findMethod? name = some method →
    Activation.enter method arguments s.store.depth s.limits.depth = .ok current →
    Begins s ⟨s.store.opened, s.steps, current, []⟩
  /-- The program is started, and it takes no arguments. -/
  | entry {entry : Method} {current : Activation} : s.program.entryMethod? = some entry →
    entry.parameters = [] →
    Activation.enter entry [] s.store.depth s.limits.depth = .ok current →
    Begins s ⟨s.store.opened, s.steps, current, []⟩
  /-- The program is started with arguments. -/
  | entryArguments {entry : Method} {only : MethodParameter} {args : List String}
    {current : Activation} : s.program.entryMethod? = some entry → entry.parameters = [only] →
    Activation.enter entry [(hostArguments args s.store).1] s.store.depth s.limits.depth =
      .ok current →
    Begins s ⟨(hostArguments args s.store).2.opened, s.steps, current, []⟩

/-- A run that the host began is in progress. -/
inductive Running (s : Session) : Run → Prop where
  | begins {r : Run} : s.Begins r → Running s r
  | step {r r' : Run} : Running s r → r.step s.program s.limits = .more r' → Running s r'

end Session

/-! ## One step -/

/-- The discipline while the machine runs and after the outermost call has ended. -/
def Progress.Disciplined : Progress → Prop
  | .more r => ManagedC.Disciplined r.frames r.store
  | .done _ store _ => ManagedC.Disciplined [] store

namespace Run

variable {callers : List Activation} {a : Activation} {s : Store} {steps : Nat}

/-- A crash keeps the discipline, however many calls it ends. -/
theorem disciplined_raise {c : Crash} : ∀ {callers : List Activation} {a : Activation} {s : Store},
    Disciplined (a :: callers) s → (raise s steps c a callers).Disciplined := by
  intro callers
  induction callers with
  | nil =>
    intro a s h
    cases hcover : a.covering with
    | cons region rest =>
      rw [raise_of_covering_cons hcover]
      exact h.replace rfl rfl ((h.calls a List.mem_cons_self).withStack (by simp))
    | nil =>
      rw [raise_of_covering_nil hcover]
      exact h.release.1
  | cons caller callers ih =>
    intro a s h
    cases hcover : a.covering with
    | cons region rest =>
      rw [raise_of_covering_cons hcover]
      exact h.replace rfl rfl ((h.calls a List.mem_cons_self).withStack (by simp))
    | nil =>
      rw [raise_of_covering_nil hcover]
      exact ih h.release.1

/-- A call that has ended leaves a disciplined machine behind. -/
theorem disciplined_resume {result : CallResult} (h : Disciplined callers s)
    (hresult : ∀ v, result = .ok (some v) → s.heap.Knows v) :
    (resume callers result s steps).Disciplined := by
  cases callers with
  | nil => exact h
  | cons caller callers =>
    have hcaller := h.calls caller List.mem_cons_self
    match result with
    | .error c => exact disciplined_raise h
    | .ok none => exact h.replace rfl rfl (hcaller.withStack hcaller.stack)
    | .ok (some v) =>
      exact h.replace rfl rfl
        (hcaller.withStack (List.forall_mem_cons.2 ⟨hresult v rfl, hcaller.stack⟩))

variable {program : Module} {limits : Limits} {r : Run}

/-- A call that begins is disciplined if its arguments point into arrays that exist. -/
theorem disciplined_enter {m : Method} {arguments : List Value} {depth maxDepth : Nat}
    (h : Disciplined callers s) (harguments : ∀ v ∈ arguments, s.heap.Knows v)
    (henter : Activation.enter m arguments depth maxDepth = .ok a) :
    Disciplined (a :: callers) s.opened := by
  obtain ⟨-, -, regions, -, rfl⟩ := Activation.enter_eq_ok.1 henter
  have hnowhere : ∀ v ∈ m.locals.map fun v => Value.zeroOf v.type, pinTarget? v = none := by
    intro v hv
    obtain ⟨declared, -, rfl⟩ := Array.mem_map.1 hv
    exact Value.pinTarget?_zeroOf _
  refine (h.atDepth _).enter ⟨by simp, fun v hv => Heap.knows_of_none (hnowhere v hv), fun v hv => ?_, by simp⟩
    hnowhere
  exact harguments v (List.mem_toArray.1 hv)

/-- A step keeps the discipline. -/
theorem disciplined_stepsTo {p : Progress} (h : Disciplined r.frames r.store)
    (hstep : StepsTo program limits r p) : p.Disciplined := by
  have hcurrent := h.calls r.current List.mem_cons_self
  -- The call in progress ends, with a crash or with a value that was on its stack.
  have hended : ∀ {result : CallResult}, (∀ v, result = .ok (some v) → r.store.heap.Knows v) →
      (resume r.callers result (r.current.close r.store) (r.steps + 1)).Disciplined := by
    intro result hresult
    obtain ⟨hcallers, hreleased⟩ := Disciplined.release h
    exact disciplined_resume hcallers fun v hv => hreleased.knows v (hresult v hv)
  -- The call in progress goes on at another place.
  have hmoved : ∀ {stack : List Value} {pc : Nat} {pending : List Pending},
      (∀ v ∈ stack, r.store.heap.Knows v) → Disciplined
        ({ r.current with stack := stack, pc := pc, pending := pending } :: r.callers) r.store :=
    fun hstack => Disciplined.replace h rfl rfl (hcurrent.withStack hstack)
  cases hstep with
  | limit | fellOff | callMissing | callShort | callRefused | retEmpty | leaveUnbound =>
    exact disciplined_raise h
  | executed _ _ _ hexec => exact Disciplined.executes h hexec
  | faulted _ _ hcontrol hfails =>
    exact disciplined_raise (Disciplined.keep h
      (Disciplined.keepsPins_of_fails hcurrent hcontrol hfails))
  | callEntered _ _ _ _ henter =>
    refine disciplined_enter (hmoved fun v hv => hcurrent.stack v (List.mem_of_mem_drop hv))
      (fun v hv => ?_) henter
    exact hcurrent.stack v (List.mem_of_mem_take (List.mem_reverse.1 hv))
  | returned _ _ hvalue _ =>
    refine hended ?_
    rintro v ⟨⟩
    rcases hvalue with ⟨-, hv⟩ | ⟨-, w, rest, hstack, hv⟩
    · cases hv
    · cases hv
      exact hcurrent.stack _ (by rw [hstack]; exact List.mem_cons_self)
  | handlerReturned | stray | crashDone => exact hended (by rintro v ⟨⟩)
  | jumped | left | nextHandler | jumpDone => exact hmoved (by simp)

theorem disciplined_step (h : Disciplined r.frames r.store) :
    (r.step program limits).Disciplined :=
  disciplined_stepsTo h (stepsTo_step r)

end Run

/-- So does a run, to its end. -/
theorem Progress.Ends.disciplined {program : Module} {limits : Limits} {p : Progress} {o : Ending}
    (h : p.Ends program limits o) (hp : p.Disciplined) : ManagedC.Disciplined [] o.2.1 := by
  induction h with
  | done => exact hp
  | more _ ih => exact ih (Run.disciplined_step hp)

/-! ## Sessions -/

namespace Session

variable {s s' : Session} {r : Run}

/-- The strings that the host passes leave pins alone. -/
theorem keepsPins_hostArguments (args : List String) (s : Store) :
    s.KeepsPins (hostArguments args s).2 := by
  refine hostArguments_induction args (.refl s) (fun t text h => h.trans (.addObject (by simp)))
    fun t _ h => h.trans (.addObject ?_)
  rintro element elements pins ⟨⟩
  refine ⟨rfl, fun v hv => ?_⟩
  obtain ⟨i, -, rfl⟩ := List.mem_map.1 (List.mem_toArray.1 hv)
  rfl

/-- A run that begins is disciplined, and nothing waits for it. -/
theorem Begins.disciplined (h : s.Begins r) (hs : Disciplined [] s.store) :
    r.callers = [] ∧ Disciplined r.frames r.store := by
  cases h with
  | call hknown _ henter => exact ⟨rfl, Run.disciplined_enter hs hknown henter⟩
  | entry _ _ henter => exact ⟨rfl, Run.disciplined_enter hs (by simp) henter⟩
  | entryArguments _ _ henter =>
    refine ⟨rfl, Run.disciplined_enter (hs.keep (keepsPins_hostArguments _ _)) ?_ henter⟩
    exact List.forall_mem_singleton.2 (Heap.knows_of_none rfl)

theorem Running.disciplined (h : s.Running r) (hs : Disciplined [] s.store) :
    Disciplined r.frames r.store := by
  induction h with
  | begins hr => exact (hr.disciplined hs).2
  | @step r r' _ hstep ih =>
    have hdisciplined : (r.step s.program s.limits).Disciplined := Run.disciplined_step ih
    rw [hstep] at hdisciplined
    exact hdisciplined

theorem Running.after {n : Nat} {r r' : Run} (h : s.Running r)
    (hafter : r.after? s.program s.limits n = some r') : s.Running r' := by
  induction n generalizing r with
  | zero =>
    cases hafter
    exact h
  | succ n ih =>
    rw [Run.after?] at hafter
    split at hafter
    · rename_i hstep
      exact ih (.step h hstep) hafter
    · cases hafter

theorem disciplined_of_invoke {method : Method} {arguments : List Value} {result : CallResult}
    (hs : Disciplined [] s.store) (hknown : ∀ v ∈ arguments, s.store.heap.Knows v)
    (h : s.invoke method arguments = some (result, s')) : Disciplined [] s'.store := by
  unfold invoke at h
  split at h
  · cases h
    exact hs
  · rename_i current henter
    obtain ⟨⟨result, t, steps⟩, hrun, h⟩ := Option.map_eq_some_iff.1 h
    cases h
    exact (Progress.Ends.of_iterate hrun).disciplined (Run.disciplined_enter hs hknown henter)

/-- Between the calls from outside the machine counts no call in progress. -/
theorem Driven.depth (h : s.Driven) : s.store.depth = 0 := by
  induction h with
  | fresh => rfl
  | started _ hrun ih => exact (depth_runEntry hrun).trans ih
  | called _ _ hcall ih => exact (depth_call hcall).trans ih

/-- A run that the host has begun counts right. -/
theorem Running.counts (h : s.Running r) : r.Counts s.store.depth := by
  induction h with
  | begins hr => cases hr <;> rfl
  | @step r r' _ hstep ih =>
    have hcounts : (r.step s.program s.limits).Counts s.store.depth := (Run.stepsTo_step r).counts ih
    rw [hstep] at hcounts
    exact hcounts

/-- Whatever a host brings about, nothing is pinned between its calls that is not let go of. -/
theorem Driven.disciplined (h : s.Driven) : Disciplined [] s.store := by
  induction h with
  | fresh =>
    refine ⟨by simp, ?_, ?_, rfl⟩
    · intro id element elements pins ho
      simp at ho
    · intro id n hn
      obtain ⟨element, elements, ho⟩ := Heap.pins?_eq_some.1 hn
      simp at ho
  | called _ hknown hcall ih =>
    unfold Session.call at hcall
    split at hcall
    · cases hcall
      exact ih
    · exact disciplined_of_invoke ih hknown hcall
  | @started s s' args result _ hrun ih =>
    unfold runEntry at hrun
    split at hrun
    · cases hrun
      exact ih
    split at hrun
    · obtain ⟨⟨r, t⟩, ht, hrun⟩ := Option.map_eq_some_iff.1 hrun
      cases hrun
      exact disciplined_of_invoke ih (by simp) ht
    · split at hrun
      · obtain ⟨⟨r, t⟩, ht, hrun⟩ := Option.map_eq_some_iff.1 hrun
        cases hrun
        have hs : Disciplined [] (hostArguments args s.store).2 :=
          ih.keep (keepsPins_hostArguments args s.store)
        refine disciplined_of_invoke (s := { s with store := (hostArguments args s.store).2 }) hs ?_ ht
        exact List.forall_mem_singleton.2 (Heap.knows_of_none rfl)
      · cases hrun
        exact ih
    · cases hrun
      exact ih

end Session

/-! ## What discipline gives -/

namespace Activation

variable {a : Activation} {frames : List Activation} {id : Nat}

theorem pins_of_held_pos (h : 0 < a.held (· == id)) : a.Pins id := by
  obtain ⟨slot, declared, v, k, hdeclared, hpinned, hv, hk, heq⟩ := exists_of_held_pos h
  obtain rfl : k = id := by simpa using heq
  exact ⟨slot, declared, v, hdeclared, hpinned, hv, hk⟩

theorem Pins.held_pos (h : a.Pins id) : 0 < a.held (· == id) := by
  obtain ⟨slot, declared, v, hdeclared, hpinned, hv, hid⟩ := h
  exact Activation.held_pos hdeclared hpinned hv hid (by simp)

end Activation

namespace Disciplined

variable {frames : List Activation} {s : Store} {id : Nat}

/-- An array on which a pin is held is pinned. -/
theorem exists_pins (h : Disciplined frames s) (hpos : 0 < heldBy frames (· == id)) :
    ∃ n, s.heap.pins? id = some (n + 1) := by
  obtain ⟨n, hn⟩ := Option.isSome_iff_exists.1 (h.isSome_pins hpos)
  have heq := h.accounts.pins id n hn
  exact ⟨n - 1, by rw [hn, Nat.sub_add_cancel (by omega)]⟩

/-- An array that is accessed through an unmanaged pointer is pinned by a call in progress. -/
theorem exists_pins_of_checkAccess (h : Disciplined frames s) {p : Pointer}
    (hplace : p.place = .array id) (hmanaged : p.managed = false)
    (hcheck : s.heap.checkAccess p = .ok ()) : ∃ a ∈ frames, a.Pins id := by
  unfold Heap.checkAccess at hcheck
  rw [hplace, hmanaged] at hcheck
  dsimp only at hcheck
  split at hcheck
  · rename_i hpinned
    obtain ⟨n, hn, hpos⟩ := (Option.any_eq_true _ _).1 (by simpa [Heap.isPinned] using hpinned)
    have hheld : 0 < heldBy frames (· == id) := by
      rw [← h.accounts.pins id n hn]
      simpa using hpos
    obtain ⟨a, ha, hpos⟩ := Activation.exists_of_heldBy_pos hheld
    exact ⟨a, ha, Activation.pins_of_held_pos hpos⟩
  · cases hcheck

end Disciplined

/-- What the machine unpins is pinned. -/
theorem Run.Unpins.pinned {r : Run} {s : Store} {id : Nat} (h : r.Unpins s id)
    (hr : Disciplined r.frames r.store) : ∃ n, s.heap.pins? id = some (n + 1) := by
  cases h with
  | overwritten hpins =>
    refine hr.exists_pins (Nat.lt_of_lt_of_le hpins.held_pos ?_)
    exact Activation.held_le_heldBy List.mem_cons_self
  | @ended s gone rest a before after declared v _ hs hframes hslots hpinned hid =>
    have hkeeps : r.store.KeepsPins s := by
      rcases hs with rfl | ⟨i, f, -, hcontrol, hfails⟩
      · exact .refl _
      · exact Disciplined.keepsPins_of_fails (hr.calls r.current List.mem_cons_self) hcontrol hfails
    have hgone := hr.keep hkeeps
    rw [hframes] at hgone
    obtain ⟨hrest, -⟩ := Disciplined.releaseAll hgone
    replace hrest : Disciplined (a :: rest) (gone.foldl (fun s a => a.close s) s).closed :=
      hrest.atDepth _
    generalize (gone.foldl (fun s a => a.close s) s).closed = u at hrest ⊢
    have ha := hrest.calls a List.mem_cons_self
    have hknown : ∀ slot ∈ before ++ (declared, v) :: after, u.heap.Knows slot.2 := fun slot hslot =>
      ha.locals slot.2 (Array.mem_toList_iff.1 (List.of_mem_zip (hslots ▸ hslot)).2)
    -- What the call holds, its variables hold that are still to be let go of.
    have haccounts : u.Accounts fun kind => (heldBy rest kind +
        ((declared, v) :: after).countP (LocalVariable.holds kind)) +
          before.countP (LocalVariable.holds kind) := by
      refine hrest.accounts.congr fun kind => ?_
      rw [Activation.heldBy_cons, Activation.held, hslots, List.countP_append]
      omega
    obtain ⟨hafter, hreleased⟩ := haccounts.releaseSlots fun slot hslot =>
      hknown slot (List.mem_append_left _ hslot)
    have hexists := hreleased.knows v (hknown (declared, v) (by simp)) id hid
    obtain ⟨n, hn⟩ := Option.isSome_iff_exists.1 hexists
    have heq := hafter.pins id n hn
    have hholds : LocalVariable.holds (· == id) (declared, v) = true := by
      unfold LocalVariable.holds
      simp [hpinned, hid]
    rw [List.countP_cons, if_pos hholds] at heq
    exact ⟨n - 1, by rw [hn, Nat.sub_add_cancel (by omega)]⟩

/-- In every session that a host can bring about, an array is pinned exactly as often as pinned
variables of the calls in progress point into it. So what is unpinned is pinned, an array is accessed
through an unmanaged pointer only while a call in progress pins it, and the pins that were made and not
undone are those that are held. The counter of calls says how many are in progress. Between the calls
from outside no pin is held and no call is counted, however they ended. -/
theorem Session.Driven.pins_held {s : Session} (hs : s.Driven) :
    (∀ id n, s.store.heap.pins? id = some n → n = 0) ∧
      s.store.stats.pins = s.store.stats.unpins + s.store.stats.frameExitUnpins ∧
      s.store.depth = 0 ∧
      ∀ r, s.Running r →
        r.store.depth = r.frames.length ∧
        (∀ id n, r.store.heap.pins? id = some n → n = heldBy r.frames (· == id)) ∧
        (∀ t id, r.Unpins t id → ∃ n, t.heap.pins? id = some (n + 1)) ∧
        (∀ (p : Pointer) id type v, p.place = .array id → p.managed = false →
          r.store.heap.load p type = .ok v → ∃ a ∈ r.frames, a.Pins id) ∧
        (∀ (p : Pointer) id type v heap, p.place = .array id → p.managed = false →
          r.store.heap.store p type v = .ok heap → ∃ a ∈ r.frames, a.Pins id) ∧
        r.store.stats.pins = r.store.stats.unpins + r.store.stats.frameExitUnpins +
          heldBy r.frames (fun _ => true) := by
  have hidle := hs.disciplined
  refine ⟨hidle.accounts.pins, hidle.accounts.counts, hs.depth, fun r hr => ?_⟩
  have hdisciplined := hr.disciplined hidle
  have hcounts : r.store.depth = r.frames.length := by
    have hcounts := hr.counts
    rw [hs.depth] at hcounts
    exact hcounts.trans (congrArg (· + 1) (Nat.zero_add _))
  refine ⟨hcounts, hdisciplined.accounts.pins, fun t id hid => hid.pinned hdisciplined, ?_, ?_,
    hdisciplined.accounts.counts⟩
  · intro p id type v hplace hmanaged hload
    obtain ⟨_, hcheck, -⟩ := Except.bind_eq_ok.1 hload
    exact hdisciplined.exists_pins_of_checkAccess hplace hmanaged hcheck
  · intro p id type v heap hplace hmanaged hstore
    obtain ⟨_, hcheck, -⟩ := Except.bind_eq_ok.1 hstore
    exact hdisciplined.exists_pins_of_checkAccess hplace hmanaged hcheck

/-- A program whose only method pins an array twice through one variable and then calls itself. -/
def Module.repinning : Module where
  name := "repinning"
  methods := #[{
    name := "repin"
    attributes := ⟨true, true⟩
    returnType := .void
    parameters := []
    locals := #[⟨some "p", .int64, true⟩]
    body := { instructions := #[.constInt32 1, .newArray .int8, .constInt32 0, .elementAddress .int8,
      .dup, .storeLocal 0, .storeLocal 0, .call ⟨"repin", .void, []⟩, .ret] } }]

/-- Where two calls of that method are in progress, each holds one of the two pins that it has made. The
third call is one too many: the fault ends all of them, and no pin and no call is left. -/
theorem Session.pins_repinning :
    let s : Session := { program := .repinning, limits := { depth := 2 } }
    (∃ r, s.Running r ∧ r.store.stats.pins = 4 ∧ r.store.heap.pins? 0 = some 1 ∧
      heldBy r.frames (· == 0) = 1 ∧ r.store.depth = 2 ∧ r.frames.length = 2) ∧
    ∃ c s', s.call "repin" [] = some (.error c, s') ∧ c.fault = .stackOverflow 2 ∧
      s'.store.stats.pins = 4 ∧ s'.store.heap.pins? 0 = some 0 ∧ s'.store.depth = 0 := by
  intro s
  constructor
  · have hstart : ∃ r, s.Begins r ∧ (r.after? s.program s.limits 15).map
        (fun r => (r.store.stats.pins, r.store.heap.pins? 0, r.store.depth)) = some (4, some 1, 2) :=
      ⟨_, @Begins.call s "repin" _ [] _ (by simp) rfl rfl, by decide +kernel⟩
    obtain ⟨r₀, hbegins, hafter⟩ := hstart
    obtain ⟨r, hr, hvalues⟩ := Option.map_eq_some_iff.1 hafter
    obtain ⟨hcount, hrest⟩ := Prod.mk.inj hvalues
    obtain ⟨hpins, hdepth⟩ := Prod.mk.inj hrest
    have hrunning := (Running.begins hbegins).after hr
    obtain ⟨hlength, hheld, -⟩ := (Driven.pins_held .fresh).2.2.2 r hrunning
    exact ⟨r, hrunning, hcount, hpins, (hheld 0 1 hpins).symm, hdepth, hlength.symm.trans hdepth⟩
  · have hcall : (s.call "repin" []).map (fun x => (x.1.mapError (·.fault),
        x.2.store.stats.pins, (x.2.store.heap.pins? 0).isSome)) =
          some (.error (.stackOverflow 2), 4, true) := by
      decide +kernel
    obtain ⟨⟨result, s'⟩, hrun, hvalues⟩ := Option.map_eq_some_iff.1 hcall
    obtain ⟨hresult, hrest⟩ := Prod.mk.inj hvalues
    obtain ⟨hcount, hexists⟩ := Prod.mk.inj hrest
    obtain ⟨n, hn⟩ := Option.isSome_iff_exists.1 hexists
    have hdriven : s'.Driven := .called .fresh (by simp) hrun
    obtain ⟨hpins, -, hdepth, -⟩ := Driven.pins_held hdriven
    obtain rfl := hpins 0 n hn
    match result, hresult with
    | .error c, hresult =>
      have hfault : c.fault = .stackOverflow 2 := by simpa [Except.mapError] using hresult
      exact ⟨c, s', hrun, hfault, hcount, hn, hdepth⟩

end ManagedC
