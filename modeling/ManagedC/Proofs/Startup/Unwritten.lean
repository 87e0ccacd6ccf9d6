import ManagedC.Proofs.Cleanup.Guests
import ManagedC.Proofs.Run.Leads

/-!
# Runs that do not write memory

While the starter waits for the entry function, only stores through pointers change the heap. Main
statement: as long as there is none, the heap is as it was when the entry function began
(`Run.Hosted.unwritten`).
-/

namespace ManagedC

variable {r : Reach} {program : Module} {limits : Limits} {s t : Store} {a b : Activation}
  {host : Activation}

/-- An instruction that neither allocates nor pins nor stores through a pointer leaves the store
alone. -/
theorem Activation.Executes.store_eq {i : Instruction} (h : a.Executes s i b t)
    (hallocates : i.allocates = false)
    (hunpinned : ∀ slot, i = .storeLocal slot → ∀ v ∈ a.method.locals, v.pinned = false)
    (hi : ∀ type, i ≠ .store type) : t = s := by
  cases h with
  | @storeLocal slot v rest declared t _ hdeclared hrepin =>
    obtain ⟨hlt, rfl⟩ := Array.getElem?_eq_some_iff.1 hdeclared
    unfold repin at hrepin
    rw [hunpinned slot rfl _ (Array.getElem_mem hlt)] at hrepin
    exact (Yields.pure_iff.1 hrepin).2
  | callHelper | newArray => cases hallocates
  | store => exact absurd rfl (hi _)
  | _ => rfl

namespace Run

/-- The starter waits for other calls, and the one in progress does not store through a pointer next. -/
def Reads (r : Run) : Prop :=
  r.callers ≠ [] ∧ ∀ type, r.current.instruction? ≠ some (.store type)

/-- The machine comes from one run to another, and no call that the starter waits for stores through
a pointer. -/
abbrev Unwritten (program : Module) (limits : Limits) : Run → Run → Prop :=
  LeadsBy program limits Reads

/-- A crash goes through calls without handlers, and leaves the heap alone. -/
theorem resume_guests {hosts guests : List Activation} {c : Crash} {steps : Nat}
    (hguests : ∀ a ∈ guests, a.Modest r) : ∃ u, u.heap = t.heap ∧
      resume (guests ++ hosts) (.error c) t steps = resume hosts (.error c) u steps := by
  induction guests generalizing t with
  | nil => exact ⟨t, rfl, rfl⟩
  | cons guest guests ih =>
    obtain ⟨hguest, hguests⟩ := List.forall_mem_cons.1 hguests
    obtain ⟨u, hu, hresume⟩ := @ih t.closed hguests
    refine ⟨u, hu, ?_⟩
    show raise t steps c guest (guests ++ hosts) = _
    rw [raise_of_covering_nil hguest.covering, hguest.close, hresume]

theorem raise_guests {hosts guests : List Activation} {c : Crash} {steps : Nat}
    (ha : a.Modest r ∨ a.Restarted r) (hguests : ∀ a ∈ guests, a.Modest r) : ∃ u, u.heap = t.heap ∧
      raise t steps c a (guests ++ hosts) = resume hosts (.error c) u steps := by
  have hcovering : a.covering = [] := ha.elim (·.covering) (·.covering)
  have hclose : a.close t = t.closed := ha.elim (·.close t) (·.close t)
  rw [raise_of_covering_nil hcovering, hclose]
  exact resume_guests (t := t.closed) hguests

/-- A call at the bottom goes on with the store as it is. -/
theorem resume_host {run : Run} {result : CallResult} {steps : Nat}
    (h : resume [host] result t steps = .more run) : run.store = t ∧ run.callers = [] := by
  match result with
  | .error c =>
    have h : raise t steps c host [] = .more run := h
    cases hcovering : host.covering with
    | nil =>
      rw [raise_of_covering_nil hcovering] at h
      cases h
    | cons region rest =>
      rw [raise_of_covering_cons hcovering] at h
      cases h
      exact ⟨rfl, rfl⟩
  | .ok none | .ok (some v) =>
    cases h
    exact ⟨rfl, rfl⟩

/-- A call goes on with the heap as it is, if those without handlers above it have crashed or the one
above it has returned. -/
theorem heap_resume {run : Run} {guests : List Activation} {result : CallResult} {steps : Nat}
    (hguests : ∀ a ∈ guests, a.Modest r)
    (h : resume (guests ++ [host]) result t steps = .more run) : run.store.heap = t.heap := by
  match result with
  | .error c =>
    obtain ⟨u, hu, hresume⟩ := resume_guests hguests
    rw [hresume] at h
    exact (congrArg Store.heap (resume_host h).1).trans hu
  | .ok none | .ok (some v) =>
    cases guests <;> cases h <;> rfl

/-- A step that does not write memory leaves the heap alone. -/
theorem Hosted.heap_eq {run run' : Run} (h : run.Hosted r [host] s) (hreads : run.Reads)
    (hp : run.StepsTo program limits (.more run')) : run'.store.heap = run.store.heap := by
  obtain ⟨t, steps, a, callers⟩ := run
  obtain ⟨ha, ⟨guests, hcallers, hguests⟩, -, -⟩ := h
  obtain ⟨-, hi⟩ := hreads
  dsimp only at ha hcallers hi ⊢
  subst hcallers
  have hpending : a.pending = [] := ha.elim (·.pending) (·.pending)
  have hclose : a.close t = t.closed := ha.elim (·.close t) (·.close t)
  have hraise : ∀ {u : Store} {steps : Nat} {c : Crash},
      Progress.more run' = raise u steps c a (guests ++ [host]) → run'.store.heap = u.heap := by
    intro u steps c heq
    obtain ⟨v, hv, hresume⟩ := raise_guests ha hguests
    rw [hresume] at heq
    exact (congrArg Store.heap (resume_host heq.symm).1).trans hv
  have hkind : ∀ {i : Instruction}, a.instruction? = some i → i.allocates = false ∧
      ∀ slot, i = .storeLocal slot → ∀ v ∈ a.method.locals, v.pinned = false := by
    intro i hi
    rcases ha with ha | ha
    · exact ⟨Instruction.allocates_of_isPlain (ha.method.code _ _ hi), fun _ _ => ha.method.unpinned⟩
    · rcases Restarted.instruction ha hi with ⟨-, rfl⟩ | ⟨-, rfl⟩
      · exact ⟨rfl, by nofun⟩
      · exact ⟨rfl, by nofun⟩
  generalize heq : Progress.more run' = p at hp
  cases hp with
  | limit | fellOff | callMissing | callShort | callRefused | retEmpty | leaveUnbound => exact hraise heq
  | faulted _ hinstruction hcontrol hfails =>
    obtain ⟨hallocates, hunpinned⟩ := hkind hinstruction
    have hstore := Activation.store_of_fails hcontrol hallocates hunpinned hfails
    exact (hraise heq).trans (congrArg Store.heap hstore)
  | executed _ hinstruction _ hexec =>
    cases heq
    obtain ⟨hallocates, hunpinned⟩ := hkind hinstruction
    exact congrArg Store.heap
      (hexec.store_eq hallocates hunpinned fun type htype => hi type (htype ▸ hinstruction))
  | callEntered =>
    cases heq
    rfl
  | returned =>
    have hheap : (a.close t).heap = t.heap := by rw [hclose]; rfl
    exact (heap_resume hguests heq.symm).trans hheap
  | handlerReturned _ _ _ hp | nextHandler _ _ hp | jumpDone _ _ hp | crashDone _ _ hp =>
    dsimp only at hp
    rw [hpending] at hp
    cases hp
  | jumped | left =>
    cases heq
    rfl
  | stray =>
    have hheap : (a.close t).heap = t.heap := by rw [hclose]; rfl
    exact (heap_resume hguests heq.symm).trans hheap

/-- Calls that cannot do harm go on, or the starter does. -/
theorem Hosted.step {run run' : Run} (hprogram : program.Hospitable)
    (hobjects : ∀ id, ¬ r.objects id) (h : run.Hosted r [host] s)
    (hp : run.StepsTo program limits (.more run')) : run'.Hosted r [host] s ∨ run'.callers = [] := by
  by_cases hlimit : run.steps < limits.steps
  · have hleaves := h.leaves hprogram hobjects hlimit hp
    generalize heq : Progress.more run' = p at hleaves
    cases hleaves with
    | more hrun =>
      cases heq
      exact .inl hrun
    | ended => exact .inr (resume_host heq.symm).2
  · obtain ⟨guests, hcallers, hguests⟩ := h.guests
    have hraised := hp.step_eq.symm.trans (StepsTo.limit (Nat.le_of_not_lt hlimit)).step_eq
    have hraised : Progress.more run' = raise run.store run.steps _ run.current run.callers := hraised
    rw [hcallers] at hraised
    obtain ⟨u, -, hresume⟩ := raise_guests h.current hguests
    exact .inr (resume_host (hresume.symm.trans hraised.symm)).2

/-- While no memory is written, the heap is as it was. -/
theorem Hosted.unwritten {run run' : Run} (hprogram : program.Hospitable)
    (hobjects : ∀ id, ¬ r.objects id) (h : run.Hosted r [host] s)
    (hleads : run.Unwritten program limits run') : run'.store.heap = run.store.heap ∧
      (run'.Hosted r [host] s ∨ run'.callers = []) := by
  refine hleads.keeps (Q := fun run' => run'.store.heap = run.store.heap ∧
    (run'.Hosted r [host] s ∨ run'.callers = [])) ?_ ⟨rfl, .inl h⟩
  rintro r₁ r₂ hreads ⟨hheap, hhosted | hcallers⟩ hp
  · exact ⟨(hhosted.heap_eq hreads hp).trans hheap, hhosted.step hprogram hobjects hp⟩
  · exact absurd hcallers hreads.1

end Run

end ManagedC
