import ManagedC.Proofs.Run.Step
import ManagedC.Proofs.Stack.Methods

/-!
# Runs of sound programs

In a program whose methods are all sound, a run keeps every call in order: its values exist, control
is where it is safe, and its handlers are those of its method. No step of such a run faults in a
malformed way, except that a method which owes a value may run into its end. Main statements: a step
keeps the machine in order (`Run.Ordered.step`), and so does every run (`Run.Ordered.ends`).
-/

namespace ManagedC

open Method (Safe)

variable {program : Module} {limits : Limits} {s t : Store} {a b : Activation}

/-- The crashes that are allowed: if one is malformed, a method that owes a value has run into its
end. -/
def Crash.Allowed (program : Module) (c : Crash) : Prop :=
  c.fault.isMalformed = true → ∃ m ∈ program.methods, m.Owes ∧ c.method = m.name ∧
    c.fault = .invalidProgram (.fellOff m.name)

/-- Control may be where the call is. -/
def Activation.Ready (program : Module) (a : Activation) : Prop :=
  ∀ n, Safe program a.method n (!a.pending.isEmpty) a.pc a.stack.length

/-- A call is in order, wherever control is. -/
structure Activation.Ordered (program : Module) (heap : Heap) (a : Activation) : Prop where
  known : a.method ∈ program.methods
  /-- There are as many arguments as parameters. -/
  arguments : a.arguments.size = a.method.parameters.length
  /-- There are as many variables as the method declares. -/
  locals : a.locals.size = a.method.locals.size
  /-- All that the values refer to exists. -/
  within : a.Within heap.extent
  /-- Control may enter the handlers. -/
  regions : ∀ region ∈ a.regions, ∀ n, Safe program a.method n true region.handlerStart 0
  /-- Control may enter the handlers that are still to run. -/
  rest : ∀ p outer, a.pending = p :: outer →
    ∀ region ∈ p.rest, ∀ n, Safe program a.method n true region.handlerStart 0
  /-- After the handlers of a jump no handler is running, and the jump can go on. -/
  jump : ∀ p outer target, a.pending = p :: outer → p.completion = .jump target →
    outer = [] ∧ ∀ n, Safe program a.method n false target 0
  /-- After the handlers of a crash the call may end with it. -/
  fail : ∀ p outer c, a.pending = p :: outer → p.completion = .fail c → c.Allowed program

/-- The calls that wait are in order, and each can go on with as many values as it waits for. -/
def Waiting (program : Module) (heap : Heap) : Nat → List Activation → Prop
  | _, [] => True
  | results, a :: callers => a.Ordered program heap ∧
    (∀ n, Safe program a.method n (!a.pending.isEmpty) (a.pc + 1) (a.stack.length + results)) ∧
    Waiting program heap a.method.results callers

/-- The machine is in order. -/
structure Run.Ordered (program : Module) (r : Run) : Prop where
  /-- Nothing refers to what does not exist. -/
  valid : r.store.heap.Valid
  current : r.current.Ordered program r.store.heap
  ready : r.current.Ready program
  callers : Waiting program r.store.heap r.current.method.results r.callers

/-- The machine is in order, or has ended as it may. -/
def Progress.Ordered (program : Module) : Progress → Prop
  | .more r => r.Ordered program
  | .done result store _ => store.heap.Valid ∧
      (∀ c, result = .error c → c.Allowed program) ∧
      ∀ v, result = .ok (some v) → v.Within store.heap.extent

theorem Crash.Allowed.of_sound {c : Crash} (h : c.fault.isMalformed = false) :
    c.Allowed program := by
  intro h'
  rw [h] at h'
  cases h'

namespace Activation.Ordered

theorem keeps (h : a.Ordered program s.heap) (hk : s.Keeps t) : a.Ordered program t.heap :=
  { h with within := h.within.extent hk.objects hk.blocks }

/-- Control moves and values come and go. -/
theorem same (h : a.Ordered program s.heap) (hab : a.Same b) (hb : b.Within t.heap.extent) :
    b.Ordered program t.heap where
  known := hab.method ▸ h.known
  arguments := by rw [hab.arguments, hab.method, h.arguments]
  locals := by rw [hab.locals, hab.method, h.locals]
  within := hb
  regions := by
    rw [hab.regions, hab.method]
    exact h.regions
  rest := by
    rw [hab.pending, hab.method]
    exact h.rest
  jump := by
    rw [hab.pending, hab.method]
    exact h.jump
  fail := by
    rw [hab.pending]
    exact h.fail

/-- A handler begins. -/
theorem enterHandler (h : a.Ordered program s.heap) (outer : List Pending) {region : Region}
    {rest : List Region} {c : Completion}
    (hrest : ∀ r ∈ rest, ∀ n, Safe program a.method n true r.handlerStart 0)
    (hjump : ∀ target, c = .jump target → outer = [] ∧ ∀ n, Safe program a.method n false target 0)
    (hfail : ∀ crash, c = .fail crash → crash.Allowed program) :
    ({ a with pending := outer }.enterHandler region rest c).Ordered program s.heap where
  known := h.known
  arguments := h.arguments
  locals := h.locals
  within := ⟨h.within.arguments, h.within.locals, by simp [Activation.enterHandler]⟩
  regions := h.regions
  rest := by
    rintro _ _ ⟨⟩
    exact hrest
  jump := by
    rintro _ _ target ⟨⟩ hc
    exact hjump target hc
  fail := by
    rintro _ _ crash ⟨⟩ hc
    exact hfail crash hc

end Activation.Ordered

theorem Waiting.keeps (hk : s.Keeps t) : ∀ {results : Nat} {callers : List Activation},
    Waiting program s.heap results callers → Waiting program t.heap results callers
  | _, [], _ => trivial
  | _, _ :: _, h => ⟨h.1.keeps hk, h.2.1, Waiting.keeps hk h.2.2⟩

/-- Letting go of arrays keeps what exists. -/
theorem Activation.keeps_releasePins (a : Activation) (s : Store) : s.Keeps (a.releasePins s) := by
  unfold releasePins
  generalize a.method.locals.toList.zip a.locals.toList = slots
  induction slots generalizing s with
  | nil => exact .refl s
  | cons slot slots ih =>
    refine .trans ?_ (ih _)
    dsimp only
    split
    · split
      · rename_i heap hh
        obtain ⟨element, elements, pins, ho, rfl⟩ := Heap.changePins_eq_ok.1 hh
        exact .of_sizes (by simp [Store.count, Store.log]) rfl fun hs => hs.changePins hh
      · exact .refl s
    · exact .refl s

theorem Activation.keeps_close (a : Activation) (s : Store) : s.Keeps (a.close s) :=
  (Store.Keeps.of_sizes rfl rfl id : s.Keeps s.closed).trans (a.keeps_releasePins s.closed)

namespace Run

/-- The machine stays in order when a call crashes in an allowed way. -/
theorem ordered_raise {c : Crash} (hc : c.Allowed program) {callers : List Activation} {s : Store}
    {steps : Nat} {a : Activation} (hs : s.heap.Valid) (ha : a.Ordered program s.heap)
    (hw : Waiting program s.heap a.method.results callers) :
    (raise s steps c a callers).Ordered program := by
  cases hcover : a.covering with
  | cons region rest =>
    rw [raise_of_covering_cons hcover]
    have hregions : ∀ r ∈ region :: rest, ∀ n, Safe program a.method n true r.handlerStart 0 :=
      fun r hr => ha.regions r (List.mem_of_mem_filter (by rwa [← Activation.covering, hcover]))
    obtain ⟨hregion, hrest⟩ := List.forall_mem_cons.1 hregions
    refine ⟨hs, ha.enterHandler a.pending (c := .fail c) hrest (by simp) ?_, hregion, hw⟩
    intro crash hcrash
    cases hcrash
    exact hc
  | nil =>
    rw [raise_of_covering_nil hcover]
    have hk := a.keeps_close s
    cases callers with
    | nil =>
      refine ⟨hk.valid hs, ?_, by simp⟩
      intro c' hc'
      cases hc'
      exact hc
    | cons caller callers =>
      obtain ⟨hcaller, -, hw⟩ := hw
      exact ordered_raise hc (hk.valid hs) (hcaller.keeps hk) (hw.keeps hk)
termination_by callers.length

/-- The machine stays in order when a call ends as it should. -/
theorem ordered_resume {callers : List Activation} {s : Store} {steps : Nat} {results : Nat}
    {result : CallResult} (hs : s.heap.Valid) (hw : Waiting program s.heap results callers)
    (hok : ∀ value, result = .ok value →
      value.toList.length = results ∧ ∀ v ∈ value.toList, v.Within s.heap.extent)
    (herror : ∀ c, result = .error c → c.Allowed program) :
    (resume callers result s steps).Ordered program := by
  cases callers with
  | nil =>
    refine ⟨hs, herror, ?_⟩
    rintro v rfl
    exact (hok _ rfl).2 v (by simp)
  | cons caller callers =>
    obtain ⟨hcaller, hready, hw⟩ := hw
    cases result with
    | error c => exact ordered_raise (herror c rfl) hs hcaller hw
    | ok value =>
      obtain ⟨hlength, hvalue⟩ := hok value rfl
      subst hlength
      cases value with
      | none =>
        have hsame : caller.Same caller.advance := ⟨rfl, rfl, rfl, rfl, rfl⟩
        exact ⟨hs, hcaller.same hsame ⟨hcaller.within.1, hcaller.within.2, hcaller.within.3⟩,
          hready, hw⟩
      | some v =>
        have hsame : caller.Same (caller.push v).advance := ⟨rfl, rfl, rfl, rfl, rfl⟩
        have hstack := List.forall_mem_cons.2 ⟨hvalue v (by simp), hcaller.within.stack⟩
        exact ⟨hs, hcaller.same hsame ⟨hcaller.within.1, hcaller.within.2, hstack⟩, hready, hw⟩

end Run

/-! ## One instruction -/

namespace Activation

variable {i : Instruction} {n : Nat} {inHandler : Bool}

/-- An instruction inside the call finds what it needs, and leads to a safe place. -/
theorem executes_of_safe
    (h : Safe program a.method (n + 1) inHandler a.pc a.stack.length)
    (hi : a.instruction? = some i) (hcontrol : i.isControl = false) :
    i.takes ≤ a.stack.length ∧ a.method.Provides i ∧
      (a.Executes s i b t → Safe program a.method n inHandler b.pc b.stack.length) := by
  unfold instruction? at hi
  generalize hheight : a.stack.length = height at h
  cases h with
  | fellOff hnone =>
    rw [hnone] at hi
    cases hi
  | straight hj hstraight hprovides htakes hnext =>
    rw [hj] at hi
    cases hi
    refine ⟨htakes, hprovides, fun hexec => ?_⟩
    rw [hexec.height.2, hheight, hexec.pc_of_isStraight hstraight]
    exact hnext
  | branch hj hl hnext =>
    rw [hj] at hi
    cases hi
    refine ⟨Nat.zero_le _, ⟨_, hl⟩, fun hexec => ?_⟩
    cases hexec with
    | branch hpc =>
      rw [hl] at hpc
      cases hpc
      rw [← hheight] at hnext
      exact hnext
    | onTop hf => cases hf
    | onTop2 hf => cases hf
  | branchIf hj hl hjump hnext =>
    rw [hj] at hi
    cases hi
    refine ⟨Nat.le_add_left 1 _, ⟨_, hl⟩, fun hexec => ?_⟩
    cases hexec with
    | branchTaken hs _ hpc =>
      rw [hl] at hpc
      cases hpc
      rw [hs] at hheight
      cases hheight
      exact hjump
    | branchPassed hs =>
      rw [hs] at hheight
      cases hheight
      exact hnext
    | onTop hf => cases hf
    | onTop2 hf => cases hf
  | call hj | ret hj | leave hj | endFinally hj =>
    rw [hj] at hi
    cases hi
    cases hcontrol

end Activation

/-! ## Steps -/

/-- A call of a sound method begins in order. -/
theorem Activation.Ordered.enter {m : Method} {arguments : List Value} {depth maxDepth : Nat}
    (hm : m ∈ program.methods) (hsound : m.Sound program)
    (harguments : ∀ v ∈ arguments, v.Within s.heap.extent)
    (h : Activation.enter m arguments depth maxDepth = .ok a) :
    a.Ordered program s.heap ∧ a.Ready program ∧ a.method = m := by
  obtain ⟨hlength, -, regions', hregions', rfl⟩ := Activation.enter_eq_ok.1 h
  obtain ⟨regions, hregions, hsafe⟩ := hsound.regions
  obtain rfl : regions' = regions := Option.some.inj (hregions'.symm.trans hregions)
  refine ⟨⟨hm, by simpa using hlength, by simp, ⟨?_, ?_, by simp⟩, hsafe, by simp, by simp, by simp⟩,
    hsound.start, rfl⟩
  · intro v hv
    exact harguments v (List.mem_toArray.1 hv)
  · intro v hv
    obtain ⟨declared, -, rfl⟩ := Array.mem_map.1 hv
    exact Value.within_zeroOf _

/-- A sound method that gets as many arguments as it has parameters is refused only if too many calls
are in progress. -/
theorem Method.Sound.enter_eq_error {m : Method} {arguments : List Value} {depth maxDepth : Nat}
    {f : Fault} (hsound : m.Sound program) (hlength : arguments.length = m.parameters.length)
    (h : Activation.enter m arguments depth maxDepth = .error f) : f.isMalformed = false := by
  obtain ⟨regions, hregions, -⟩ := hsound.regions
  rw [(Activation.enter_eq_error hlength hregions h).2]
  rfl

namespace Run.Ordered

/-- A step of the machine keeps it in order. -/
theorem step {r : Run} (hprogram : ∀ m ∈ program.methods, m.Sound program)
    (h : r.Ordered program) : (r.step program limits).Ordered program := by
  obtain ⟨s, steps, a, callers⟩ := r
  obtain ⟨hs, ha, hready, hw⟩ := h
  dsimp only at hs ha hready hw
  have hraise : ∀ {t : Store} {steps : Nat} {c : Crash}, c.fault.isMalformed = false →
      s.Keeps t → (raise t steps c a callers).Ordered program := fun hc hk =>
    ordered_raise (.of_sound hc) (hk.valid hs) (ha.keeps hk) (hw.keeps hk)
  have hclose := a.keeps_close s
  have hproper : ∀ {i : Instruction}, a.instruction? = some i → i.isControl = false →
      Proper (a.execute i) s fun b t => b.Within t.heap.extent := by
    intro i hi hcontrol
    obtain ⟨htakes, hprovides, -⟩ :=
      Activation.executes_of_safe (s := s) (t := s) (b := a) (hready 1) hi hcontrol
    exact Activation.proper_execute hcontrol htakes hprovides ha.arguments ha.locals ha.within hs
  have hsteps := @stepsTo_step program limits ⟨s, steps, a, callers⟩
  generalize Run.step program limits ⟨s, steps, a, callers⟩ = p at hsteps
  cases hsteps with
  | limit => exact hraise rfl (.refl s)
  | fellOff _ hi =>
    have howes := (hready 1).at_none hi
    exact ordered_raise (fun _ => ⟨a.method, ha.known, howes, rfl, rfl⟩) hs ha hw
  | executed _ hi hcontrol hexec =>
    obtain ⟨hb, hk⟩ := (hproper hi hcontrol).yields _ _ (Activation.yields_of_executes hexec)
    have hsame := hexec.same
    refine ⟨hk.valid hs, ha.same hsame hb, fun n => ?_, ?_⟩
    · have hnext := (Activation.executes_of_safe (hready (n + 1)) hi hcontrol).2.2 hexec
      dsimp only
      rwa [hsame.method, hsame.pending]
    · rw [hsame.method]
      exact hw.keeps hk
  | faulted _ hi hcontrol hfail =>
    obtain ⟨hf, hk⟩ := (hproper hi hcontrol).fails _ _ hfail
    exact hraise hf hk
  | callMissing _ hi hmissing =>
    obtain ⟨callee, hfind, -⟩ := (hready 1).at_call hi
    rw [hmissing] at hfind
    cases hfind
  | callShort _ hi hm hshort =>
    obtain ⟨callee, hfind, hlength, -⟩ := (hready 1).at_call hi
    rw [hm] at hfind
    cases hfind
    exact absurd hlength (Nat.not_le_of_lt hshort)
  | callRefused _ hi hm hlength hrefused =>
    refine hraise ((hprogram _ ?_).enter_eq_error ?_ hrefused) (.refl s)
    · exact Module.mem_of_findMethod? hm
    · simpa using Nat.min_eq_left hlength
  | callEntered _ hi hm hlength henter =>
    have hmem := Module.mem_of_findMethod? hm
    have harguments : ∀ k, ∀ v ∈ (a.stack.take k).reverse, v.Within s.heap.extent :=
      fun k v hv => ha.within.stack v (List.mem_of_mem_take (List.mem_reverse.1 hv))
    obtain ⟨hcallee, hstart, hmethod⟩ :=
      Activation.Ordered.enter hmem (hprogram _ hmem) (harguments _) henter
    refine ⟨hs, hcallee, hstart, ?_, fun n => ?_, hw⟩
    · exact ha.same ⟨rfl, rfl, rfl, rfl, rfl⟩ ⟨ha.within.arguments, ha.within.locals,
        fun v hv => ha.within.stack v (List.mem_of_mem_drop hv)⟩
    · obtain ⟨callee, hfind, -, hnext⟩ := (hready (n + 1)).at_call hi
      rw [hm] at hfind
      cases hfind
      dsimp only
      rwa [hmethod, List.length_drop]
  | retEmpty _ hi hvoid hempty =>
    have hresults := ((hready 1).at_ret hi).2
    dsimp only at hempty hvoid
    rw [hempty, Method.results, if_neg hvoid] at hresults
    cases hresults
  | returned _ hi hvalue =>
    refine ordered_resume (hclose.valid hs) (hw.keeps hclose) ?_ (by simp)
    rintro _ ⟨⟩
    rcases hvalue with ⟨hvoid, rfl⟩ | ⟨hvoid, v, rest, hstack, rfl⟩
    · exact ⟨by rw [Method.results, if_pos hvoid]; rfl, by simp⟩
    · dsimp only at hstack
      refine ⟨by rw [Method.results, if_neg hvoid]; rfl, ?_⟩
      intro w hw
      obtain rfl : w = v := by simpa using hw
      exact hclose.within (ha.within.stack w (by rw [hstack]; exact List.mem_cons_self))
  | handlerReturned _ hi _ hp =>
    have houtside := ((hready 1).at_ret hi).1
    dsimp only at hp
    rw [hp] at houtside
    cases houtside
  | leaveUnbound _ hi hl =>
    obtain ⟨-, offset, hl', -⟩ := (hready 1).at_leave hi
    rw [hl] at hl'
    cases hl'
  | @jumped label target _ hi hl hleaving =>
    have houtside := ((hready 1).at_leave hi).1
    refine ⟨hs, ha.same ⟨rfl, rfl, rfl, rfl, rfl⟩ ⟨ha.within.arguments, ha.within.locals, by simp⟩,
      fun n => ?_, hw⟩
    obtain ⟨-, offset, hl', hnext⟩ := (hready (n + 1)).at_leave hi
    rw [hl] at hl'
    cases hl'
    dsimp only
    rwa [houtside]
  | @left label target region rest _ hi hl hleaving =>
    have houtside := ((hready 1).at_leave hi).1
    have hregions : ∀ r ∈ region :: rest, ∀ n, Safe program a.method n true r.handlerStart 0 :=
      fun r hr => ha.regions r (List.mem_of_mem_filter (hleaving ▸ hr : r ∈ a.leaving target))
    obtain ⟨hregion, hrest⟩ := List.forall_mem_cons.1 hregions
    refine ⟨hs, ha.enterHandler a.pending hrest ?_ (by simp), hregion, hw⟩
    rintro _ ⟨⟩
    refine ⟨by simpa using houtside, fun n => ?_⟩
    obtain ⟨-, offset, hl', hnext⟩ := (hready (n + 1)).at_leave hi
    rw [hl] at hl'
    cases hl'
    exact hnext
  | stray _ hi hp =>
    have hinside := (hready 1).at_endFinally hi
    dsimp only at hp
    rw [hp] at hinside
    cases hinside
  | @nextHandler p outer region rest _ hi hp hrest =>
    have hregions := ha.rest p outer hp
    rw [hrest] at hregions
    obtain ⟨hregion, hrest⟩ := List.forall_mem_cons.1 hregions
    exact ⟨hs, ha.enterHandler outer hrest (fun target hc => ha.jump p outer target hp hc)
      (fun c hc => ha.fail p outer c hp hc), hregion, hw⟩
  | @jumpDone p outer target _ hi hp hrest hc =>
    obtain ⟨rfl, hnext⟩ := ha.jump p outer target hp hc
    refine ⟨hs, ?_, hnext, hw⟩
    exact ⟨ha.known, ha.arguments, ha.locals, ⟨ha.within.arguments, ha.within.locals, by simp⟩,
      ha.regions, by simp, by simp, by simp⟩
  | crashDone _ hi hp hrest hc =>
    refine ordered_resume (hclose.valid hs) (hw.keeps hclose) (by simp) ?_
    rintro _ ⟨⟩
    exact ha.fail _ _ _ hp hc

/-- A run of a sound program that is in order ends as it may. -/
theorem ends {p : Progress} {o : Ending} (hprogram : ∀ m ∈ program.methods, m.Sound program)
    (hp : p.Ordered program) (h : p.Ends program limits o) :
    (Progress.done o.1 o.2.1 o.2.2).Ordered program := by
  induction h with
  | done => exact hp
  | more _ ih => exact ih (step hprogram hp)

end Run.Ordered

namespace Session

variable {s s' : Session} {result : CallResult}

theorem invoke_ordered {m : Method} {arguments : List Value}
    (hprogram : ∀ m ∈ s.program.methods, m.Sound s.program) (hm : m ∈ s.program.methods)
    (hs : s.store.heap.Valid) (hlength : arguments.length = m.parameters.length)
    (harguments : ∀ v ∈ arguments, v.Within s.store.heap.extent)
    (h : s.invoke m arguments = some (result, s')) :
    s'.program = s.program ∧ s'.store.heap.Valid ∧ ∀ c, result = .error c → c.Allowed s.program := by
  unfold invoke at h
  split at h
  · rename_i f hf
    cases h
    refine ⟨rfl, hs, ?_⟩
    rintro c ⟨⟩
    exact .of_sound ((hprogram m hm).enter_eq_error hlength hf)
  · rename_i a ha
    obtain ⟨o, ho, h⟩ := Option.map_eq_some_iff.1 h
    cases h
    obtain ⟨hcall, hready, rfl⟩ := Activation.Ordered.enter hm (hprogram m hm) harguments ha
    have hrun : Run.Ordered s.program ⟨s.store.opened, s.steps, a, []⟩ :=
      ⟨hs, hcall, hready, trivial⟩
    obtain ⟨hvalid, hcrash, -⟩ :=
      Run.Ordered.ends (p := .more _) hprogram hrun (Progress.Ends.of_iterate ho)
    exact ⟨rfl, hvalid, hcrash⟩

end Session

end ManagedC
