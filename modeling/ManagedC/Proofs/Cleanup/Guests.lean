import ManagedC.Proofs.Emit.FunctionCode
import ManagedC.Proofs.Emit.StarterCode
import ManagedC.Proofs.Run.Outcome
import ManagedC.Proofs.Run.Operands

/-!
# Calls that cannot do harm

The methods of compiled functions neither allocate nor pin, and no handler protects them. A call of
such a method works on what its arguments lead to, and so do the calls that it makes, even one of the
starter: that one faults at once because no argument is a managed object. Main statement: when the
calls above some others have ended, only what was within their reach has changed
(`Run.Hosted.finally`).
-/

namespace ManagedC

open EntryPoint (bridge bridgeRegions)

/-- The method neither allocates nor pins, and no handler protects it. -/
structure Method.Harmless (m : Method) : Prop where
  code : ∀ (pc : Nat) (i : Instruction), m.body.instructions[pc]? = some i → i.isPlain = true
  unpinned : ∀ v ∈ m.locals, v.pinned = false
  handlers : m.body.handlers = []

/-- All methods of the program are harmless, apart from starters. -/
def Module.Hospitable (program : Module) : Prop :=
  ∀ m ∈ program.methods, m.Harmless ∨ ∃ entry, m = bridge entry

/-- Between two stores only arrays within reach and bytes of blocks may have changed. -/
structure Store.Unharmed (r : Reach) (s t : Store) : Prop where
  heap : Heap.Changes r s.heap t.heap
  stats : t.stats = s.stats
  events : t.events = s.events

/-- A call of a harmless method that stays within reach. -/
structure Activation.Modest (r : Reach) (a : Activation) : Prop where
  method : a.method.Harmless
  regions : a.regions = []
  /-- No handler runs in it. -/
  pending : a.pending = []
  within : a.Within r

/-- A call of the starter that stays within reach and has just begun. -/
structure Activation.Restarted (r : Reach) (a : Activation) : Prop where
  method : ∃ entry, a.method = bridge entry
  regions : a.regions = bridgeRegions
  /-- No handler runs in it. -/
  pending : a.pending = []
  /-- It is about to look at its argument. -/
  pc : a.pc ≤ 1
  /-- No variable points into an array. -/
  unpinned : ∀ v ∈ a.locals, Activation.pinTarget? v = none
  within : a.Within r

variable {r : Reach} {program : Module} {limits : Limits} {s t u : Store} {a b : Activation}
  {hosts : List Activation}

theorem Store.Unharmed.refl (r : Reach) (s : Store) : s.Unharmed r s := ⟨.refl _ _, rfl, rfl⟩

theorem Store.Unharmed.opened (h : s.Unharmed r t) : s.Unharmed r t.opened :=
  ⟨h.heap, h.stats, h.events⟩

theorem Store.Unharmed.closed (h : s.Unharmed r t) : s.Unharmed r t.closed :=
  ⟨h.heap, h.stats, h.events⟩

theorem Store.Unharmed.trans (h : s.Unharmed r t) (h' : t.Unharmed r u) : s.Unharmed r u :=
  ⟨h.heap.trans h'.heap, h'.stats.trans h.stats, h'.events.trans h.events⟩

theorem Instruction.allocates_of_isPlain {i : Instruction} (h : i.isPlain = true) :
    i.allocates = false := by
  cases i <;> first | rfl | cases h

namespace Activation

/-- A call none of whose pinned variables points into an array has nothing to let go of. -/
theorem releasePins_eq_self (h : ∀ p ∈ a.method.locals.toList.zip a.locals.toList,
    p.1.pinned = false ∨ pinTarget? p.2 = none) : a.releasePins s = s := by
  unfold releasePins
  generalize a.method.locals.toList.zip a.locals.toList = slots at h
  induction slots with
  | nil => rfl
  | cons p slots ih =>
    obtain ⟨hp, hslots⟩ := List.forall_mem_cons.1 h
    rw [List.foldl_cons]
    rcases hp with hp | hp
    · simpa only [hp] using ih hslots
    · cases hpinned : p.1.pinned with
      | false => simpa only [hpinned] using ih hslots
      | true => simpa only [hpinned, hp] using ih hslots

theorem Modest.close (ha : a.Modest r) (s : Store) : a.close s = s.closed :=
  releasePins_eq_self fun _ hp => .inl
    (ha.method.unpinned _ (Array.mem_toList_iff.1 (List.of_mem_zip hp).1))

theorem Restarted.close (ha : a.Restarted r) (s : Store) : a.close s = s.closed :=
  releasePins_eq_self fun _ hp => .inr
    (ha.unpinned _ (Array.mem_toList_iff.1 (List.of_mem_zip hp).2))

theorem Modest.covering (ha : a.Modest r) : a.covering = [] := by
  unfold Activation.covering
  rw [ha.regions]
  rfl

theorem Restarted.covering (ha : a.Restarted r) : a.covering = [] := by
  unfold Activation.covering
  have hpc := ha.pc
  rw [ha.regions, List.filter_eq_nil_iff]
  intro region hregion
  unfold Region.protects
  rw [Bool.and_eq_true, decide_eq_true_iff]
  rcases List.mem_cons.1 hregion with rfl | hregion
  · dsimp only
    omega
  · obtain rfl := List.mem_singleton.1 hregion
    dsimp only
    omega

/-- A call of a method of a hospitable program begins modestly, or it is one of the starter. -/
theorem modest_or_restarted_of_enter {m : Method} {arguments : List Value} {depth maxDepth : Nat}
    (hm : m.Harmless ∨ ∃ entry, m = bridge entry) (harguments : ∀ v ∈ arguments, v.Within r)
    (h : enter m arguments depth maxDepth = .ok a) : a.Modest r ∨ a.Restarted r := by
  obtain ⟨-, -, regions, hregions, rfl⟩ := enter_eq_ok.1 h
  have hwithin : Within r ⟨m, regions, arguments.toArray, m.locals.map fun v => .zeroOf v.type, [],
      0, []⟩ := by
    refine ⟨fun v hv => harguments v (List.mem_toArray.1 hv), fun v hv => ?_, by simp⟩
    obtain ⟨declared, -, rfl⟩ := Array.mem_map.1 hv
    exact Value.within_zeroOf _
  rcases hm with hm | ⟨entry, rfl⟩
  · rw [hm.handlers] at hregions
    cases hregions
    exact .inl ⟨hm, rfl, rfl, hwithin⟩
  · cases hregions
    refine .inr ⟨⟨entry, rfl⟩, rfl, rfl, Nat.zero_le 1, ?_, hwithin⟩
    intro v hv
    obtain ⟨declared, -, rfl⟩ := Array.mem_map.1 hv
    unfold Value.zeroOf
    split
    · rfl
    · split <;> rfl

end Activation

namespace Run

/-- Calls that cannot do harm run above some others, and have not done any. -/
structure Hosted (r : Reach) (hosts : List Activation) (s : Store) (run : Run) : Prop where
  current : run.current.Modest r ∨ run.current.Restarted r
  /-- The calls that wait for it. -/
  guests : ∃ guests, run.callers = guests ++ hosts ∧ ∀ a ∈ guests, a.Modest r
  /-- The heap refers to what is within reach. -/
  within : run.store.heap.Within r
  unharmed : s.Unharmed r run.store

/-- The calls above some others go on, or have ended without having done harm. -/
inductive Leaves (r : Reach) (hosts : List Activation) (s : Store) : Progress → Prop where
  | more {run : Run} : run.Hosted r hosts s → Leaves r hosts s (.more run)
  | ended {result : CallResult} {t : Store} {steps : Nat} : s.Unharmed r t → t.heap.Within r →
    (∀ v, result = .ok (some v) → v.Within r) → Leaves r hosts s (resume hosts result t steps)

/-- A call that ends does no harm to the calls that it returns to. -/
theorem leaves_resume {guests : List Activation} {result : CallResult} {t : Store} {steps : Nat}
    (hguests : ∀ a ∈ guests, a.Modest r) (ht : s.Unharmed r t) (hwithin : t.heap.Within r)
    (hresult : ∀ v, result = .ok (some v) → v.Within r) :
    Leaves r hosts s (resume (guests ++ hosts) result t steps) := by
  cases guests with
  | nil => exact .ended ht hwithin hresult
  | cons guest guests =>
    obtain ⟨hguest, hguests⟩ := List.forall_mem_cons.1 hguests
    match result with
    | .error c =>
      show Leaves r hosts s (raise t steps c guest (guests ++ hosts))
      rw [raise_of_covering_nil hguest.covering, hguest.close]
      exact leaves_resume hguests ht.closed hwithin (by simp)
    | .ok none =>
      have hw := hguest.within
      exact .more ⟨.inl ⟨hguest.method, hguest.regions, hguest.pending,
        ⟨hw.arguments, hw.locals, hw.stack⟩⟩, ⟨guests, rfl, hguests⟩, hwithin, ht⟩
    | .ok (some v) =>
      have hw := hguest.within
      have hstack := List.forall_mem_cons.2 ⟨hresult v rfl, hw.stack⟩
      exact .more ⟨.inl ⟨hguest.method, hguest.regions, hguest.pending,
        ⟨hw.arguments, hw.locals, hstack⟩⟩, ⟨guests, rfl, hguests⟩, hwithin, ht⟩
termination_by guests.length

/-- A crash of a call does no harm either. -/
theorem leaves_raise {guests : List Activation} {steps : Nat} {c : Crash}
    (ha : a.Modest r ∨ a.Restarted r) (hguests : ∀ a ∈ guests, a.Modest r) (ht : s.Unharmed r t)
    (hwithin : t.heap.Within r) :
    Leaves r hosts s (raise t steps c a (guests ++ hosts)) := by
  have hcovering : a.covering = [] := ha.elim (·.covering) (·.covering)
  have hclose : a.close t = t.closed := ha.elim (·.close t) (·.close t)
  rw [raise_of_covering_nil hcovering, hclose]
  exact leaves_resume hguests ht.closed hwithin (by simp)

/-- What the starter does first: it looks at its argument. -/
theorem Restarted.instruction {i : Instruction} (ha : a.Restarted r)
    (hi : a.instruction? = some i) :
    a.pc = 0 ∧ i = .loadArgument 0 ∨ a.pc = 1 ∧ i = .arrayLength := by
  obtain ⟨entry, hm⟩ := ha.method
  have hpc := ha.pc
  unfold Activation.instruction? at hi
  rw [hm] at hi
  rcases Nat.le_one_iff_eq_zero_or_eq_one.1 hpc with h | h
  · rw [h] at hi
    cases hi
    exact .inl ⟨h, rfl⟩
  · rw [h] at hi
    cases hi
    exact .inr ⟨h, rfl⟩

/-- No step of a call that cannot do harm does any. -/
theorem Hosted.leaves {run : Run} {p : Progress} (hprogram : program.Hospitable)
    (hobjects : ∀ id, ¬ r.objects id) (h : run.Hosted r hosts s)
    (hlimit : run.steps < limits.steps) (hp : run.StepsTo program limits p) :
    Leaves r hosts s p := by
  obtain ⟨t, steps, a, callers⟩ := run
  obtain ⟨ha, ⟨guests, hcallers, hguests⟩, hwithin, ht⟩ := h
  dsimp only at ha hcallers hwithin ht hlimit
  subst hcallers
  have hstack : a.Within r := ha.elim (·.within) (·.within)
  have hpending : a.pending = [] := ha.elim (·.pending) (·.pending)
  have hclose : a.close t = t.closed := ha.elim (·.close t) (·.close t)
  have hplain : ∀ {i : Instruction}, a.instruction? = some i →
      (a.Modest r ∧ i.isPlain = true) ∨
        (a.Restarted r ∧ (a.pc = 0 ∧ i = .loadArgument 0 ∨ a.pc = 1 ∧ i = .arrayLength)) := by
    intro i hi
    rcases ha with ha | ha
    · exact .inl ⟨ha, ha.method.code _ _ hi⟩
    · exact .inr ⟨ha, Restarted.instruction ha hi⟩
  have hcaller : ∀ {ref : MethodRef}, a.instruction? = some (.call ref) → a.Modest r := by
    intro ref hi
    rcases hplain hi with ⟨ha, -⟩ | ⟨-, ⟨-, h⟩ | ⟨-, h⟩⟩
    · exact ha
    · cases h
    · cases h
  cases hp with
  | limit hle => exact absurd hlimit (Nat.not_lt.2 hle)
  | fellOff | callMissing | callShort | callRefused | retEmpty | leaveUnbound =>
    exact leaves_raise ha hguests ht hwithin
  | @executed i b t' _ hi hcontrol hexec =>
    rcases hplain hi with ⟨ha, hplain⟩ | ⟨ha, ⟨hpc, rfl⟩ | ⟨hpc, rfl⟩⟩
    · have hallocates := Instruction.allocates_of_isPlain hplain
      obtain ⟨hb, hwithin'⟩ := hexec.within hallocates hstack hwithin
      obtain ⟨hheap, hstats, hevents⟩ := hexec.changes hallocates hstack ha.method.unpinned
      have hsame := hexec.same
      exact .more ⟨.inl ⟨hsame.method ▸ ha.method, hsame.regions ▸ ha.regions,
        hsame.pending ▸ ha.pending, hb⟩, ⟨guests, rfl, hguests⟩, hwithin',
        ht.trans ⟨hheap, hstats, hevents⟩⟩
    · obtain ⟨hb, -⟩ := hexec.within rfl hstack hwithin
      cases hexec with
      | loadArgument hv =>
        exact .more ⟨.inr ⟨ha.method, ha.regions, ha.pending, Nat.succ_le_succ (Nat.le_of_eq hpc),
          ha.unpinned, hb⟩, ⟨guests, rfl, hguests⟩, hwithin, ht⟩
      | onTop hf => cases hf
      | onTop2 hf => cases hf
    · cases hexec with
      | arrayLength hs hid =>
        have hv := hstack.stack
        rw [hs] at hv
        exact absurd ((List.forall_mem_cons.1 hv).1.asObject hid) (hobjects _)
      | onTop hf => cases hf
      | onTop2 hf => cases hf
  | @faulted i f t' _ hi hcontrol hfails =>
    have hstore : t' = t := by
      rcases hplain hi with ⟨ha, hplain⟩ | ⟨-, ⟨-, rfl⟩ | ⟨-, rfl⟩⟩
      · exact Activation.store_of_fails hcontrol (Instruction.allocates_of_isPlain hplain)
          (fun _ _ => ha.method.unpinned) hfails
      · exact Activation.store_of_fails rfl rfl (by rintro _ ⟨⟩) hfails
      · exact Activation.store_of_fails rfl rfl (by rintro _ ⟨⟩) hfails
    subst hstore
    exact leaves_raise ha hguests ht hwithin
  | callEntered _ hi hm hlength henter =>
    have ha := hcaller hi
    have hcallee := Activation.modest_or_restarted_of_enter
      (hprogram _ (Module.mem_of_findMethod? hm))
      (fun v hv => hstack.stack v (List.mem_of_mem_take (List.mem_reverse.1 hv))) henter
    have hrest : ∀ k, ∀ v ∈ a.stack.drop k, v.Within r :=
      fun k v hv => hstack.stack v (List.mem_of_mem_drop hv)
    refine .more ⟨hcallee, ⟨_ :: guests, rfl, List.forall_mem_cons.2 ⟨?_, hguests⟩⟩, hwithin,
      ht.opened⟩
    exact ⟨ha.method, ha.regions, ha.pending, ⟨hstack.arguments, hstack.locals, hrest _⟩⟩
  | returned _ hi hvalue =>
    dsimp only
    rw [hclose]
    refine leaves_resume hguests ht.closed hwithin ?_
    rintro v ⟨⟩
    rcases hvalue with ⟨-, h⟩ | ⟨-, w, rest, hs, h⟩
    · cases h
    · cases h
      exact hstack.stack v (by dsimp only at hs; rw [hs]; exact List.mem_cons_self)
  | handlerReturned _ _ _ hp | nextHandler _ _ hp | jumpDone _ _ hp | crashDone _ _ hp =>
    dsimp only at hp
    rw [hpending] at hp
    cases hp
  | jumped _ hi | left _ hi | stray _ hi =>
    rcases hplain hi with ⟨-, h⟩ | ⟨-, ⟨-, h⟩ | ⟨-, h⟩⟩
    · cases h
    · cases h
    · cases h

/-- A postcondition holds in the end if it does when the calls above some others have ended without
having done harm. -/
theorem Hosted.finally {run : Run} {post : CallResult → Store → Prop}
    (hprogram : program.Hospitable) (hobjects : ∀ id, ¬ r.objects id) (h : run.Hosted r hosts s)
    (hpost : ∀ result t steps, s.Unharmed r t → t.heap.Within r →
      (∀ v, result = .ok (some v) → v.Within r) →
      Progress.Finally program limits post (resume hosts result t steps)) :
    Progress.Finally program limits post (.more run) := by
  have hleaves : ∀ {p : Progress} {o : Ending}, p.Ends program limits o → Leaves r hosts s p →
      CallResult.OutOfSteps o.1 ∨ post o.1 o.2.1 := by
    intro p o ho
    induction ho with
    | @done result store steps =>
      intro hp
      generalize hdone : Progress.done result store steps = p at hp
      cases hp with
      | more => cases hdone
      | @ended _ _ steps ht hwithin hresult =>
        have hp := hpost _ _ steps ht hwithin hresult
        rw [← hdone] at hp
        exact hp _ .done
    | @more run o ho ih =>
      intro hp
      generalize hmore : Progress.more run = p at hp
      cases hp with
      | more hrun =>
        cases hmore
        by_cases hlimit : run.steps < limits.steps
        · exact ih (hrun.leaves hprogram hobjects hlimit (stepsTo_step run))
        · exact .inl ((Progress.Ends.more ho).outOfSteps (Nat.le_of_not_lt hlimit))
      | @ended _ _ steps ht hwithin hresult =>
        have hp := hpost _ _ steps ht hwithin hresult
        rw [← hmore] at hp
        exact hp _ (.more ho)
  exact fun o ho => hleaves ho (.more h)

end Run

end ManagedC
