import ManagedC.Proofs.Run.Leads
import ManagedC.Proofs.Startup.Copies

/-!
# The starter on its way to its call

A forward run of the starter, on any store: if it comes to the call of the entry function, it has
listed native copies of the host's strings twice, pinned one of the lists and put it on the stack.
After the call it never comes there again. Main statement: `EntryPoint.always_started`.
-/

namespace ManagedC.EntryPoint

open Progress (Always)

/-- The starter is about to call the entry function. -/
structure Calls (entry : MethodRef) (args : List String) (r : Run) (first argv id : Nat) : Prop where
  /-- What it calls the entry function with is on the stack, and what its handlers need is kept. -/
  current : ∃ arg, r.current = frame entry arg
    #[.int (Int64.ofNat args.length), .object argv, .object id, .pointer ⟨.array id, 0, true⟩, .int 0]
    [.pointer ⟨.array id, 0, false⟩, .int (Int64.ofNat args.length)] 25 []
  /-- There are two lists. -/
  distinct : argv ≠ id
  /-- The one that is given back later. -/
  original : r.store.heap.Lists args first argv 0
  /-- The one for the entry function. -/
  copy : r.store.heap.Lists args first id 1

/-- What the starter gives back is the value, whenever it gives native copies back. -/
def GivesBack (v : Value) (r : Run) : Prop :=
  r.callers = [] → r.current.instruction? = some (.callHelper .freeArgv) →
    ∃ rest, r.current.stack = v :: rest

/-- When the starter comes to its call, it has done what it should, and what it gives back afterwards
is another list than the one that it passes on. -/
def Prepares (program : Module) (limits : Limits) (entry : MethodRef) (args : List String) (r : Run) :
    Prop :=
  r.callers = [] → r.current.pc = 25 → ∃ first argv id, Calls entry args r first argv id ∧
    Always program limits (GivesBack (.object argv)) (.more r)

/-- Where jumps of the starter behind its call lead: nowhere between the load of what it gives back and
the service that takes it. -/
def IsBehind (pc : Nat) : Prop := 25 < pc ∧ pc ≠ 34

/-- Where control goes after the handlers of the starter. -/
def PendingLate (pending : List Pending) : Prop :=
  ∀ p ∈ pending, (∀ region ∈ p.rest, region ∈ bridgeRegions) ∧
    ∀ target, p.completion = .jump target → IsBehind target

/-- The starter is behind its call, and has a value to give back. -/
structure Late (entry : MethodRef) (v : Value) (a : Activation) : Prop where
  method : a.method = bridge entry
  regions : a.regions = bridgeRegions
  pc : 25 < a.pc
  /-- Where the value is kept. -/
  kept : a.locals[1]? = some v
  /-- Where it is passed to the service. -/
  given : a.pc = 34 → ∃ rest, a.stack = v :: rest
  /-- Where control goes after handlers. -/
  pending : PendingLate a.pending

/-- The starter waits for the entry function, or it is behind its call. -/
def Past (entry : MethodRef) (v : Value) (r : Run) : Prop :=
  (r.callers = [] ∧ Late entry v r.current) ∨
    ∃ guests host, r.callers = guests ++ [host] ∧ host.method = bridge entry ∧
      host.regions = bridgeRegions ∧ host.pc = 25 ∧ host.locals[1]? = some v ∧ host.pending = []

variable {program : Module} {limits : Limits} {entry : MethodRef} {args : List String}
  {r r' : Run} {a b : Activation} {s t : Store} {steps : Nat} {i : Instruction} {v : Value}

/-! ## Behind the call -/

theorem isBehind_handlerStart {region : Region} (h : region ∈ bridgeRegions) :
    IsBehind region.handlerStart := by
  rcases List.mem_cons.1 h with rfl | h
  · exact ⟨by decide, by decide⟩
  · obtain rfl := List.mem_singleton.1 h
    exact ⟨by decide, by decide⟩

/-- Only one instruction gives native copies back. -/
theorem pc_of_freeArgv (hmethod : a.method = bridge entry)
    (hi : a.instruction? = some (.callHelper .freeArgv)) : a.pc = 34 := by
  unfold Activation.instruction? at hi
  rw [hmethod] at hi
  have hall : ∀ n : Nat, n < 38 →
      (bridge entry).body.instructions[n]? = some (.callHelper .freeArgv) → n = 34 :=
    of_decide_eq_true rfl
  exact hall _ (Array.getElem?_eq_some_iff.1 hi).1 hi

/-- An instruction behind the call: it calls no method, leaves where control goes and the value alone,
and before the value is given back it is loaded. -/
structure IsLate (pc : Nat) (i : Instruction) : Prop where
  target : i.isControl = false → i.target? = none
  /-- It does not store to the variable that keeps the value. -/
  store : i ≠ .storeLocal 1
  call : ∀ ref, i ≠ .call ref
  /-- It leaves to known labels. -/
  leave : ∀ label, i = .leave label → label = 3 ∨ label = 1
  /-- It loads the value if that is given back next. -/
  load : pc = 33 → i = .loadLocal 1

theorem isLate (ha : Late entry v a) (hi : a.instruction? = some i) : IsLate a.pc i := by
  unfold Activation.instruction? at hi
  rw [ha.method] at hi
  have hlt : a.pc < 38 := (Array.getElem?_eq_some_iff.1 hi).1
  have hpc : a.pc = 26 ∨ a.pc = 27 ∨ a.pc = 28 ∨ a.pc = 29 ∨ a.pc = 30 ∨ a.pc = 31 ∨ a.pc = 32 ∨
      a.pc = 33 ∨ a.pc = 34 ∨ a.pc = 35 ∨ a.pc = 36 ∨ a.pc = 37 := by
    have := ha.pc
    omega
  rcases hpc with h | h | h | h | h | h | h | h | h | h | h | h
  all_goals
    rw [h] at hi ⊢
    obtain rfl : _ = i := by simpa [bridge] using hi
    exact ⟨by simp [Instruction.isControl, Instruction.target?], by simp, by simp, by simp, by simp⟩

/-- The starter jumps behind its call. -/
theorem isBehind_target {label : Label} {target : Nat} (ha : Late entry v a)
    (hi : a.instruction? = some (.leave label))
    (htarget : a.method.body.labels.offset? label = some target) : IsBehind target := by
  rw [ha.method] at htarget
  rcases (isLate ha hi).leave label rfl with rfl | rfl
  · cases htarget
    exact ⟨by decide, by decide⟩
  · cases htarget
    exact ⟨by decide, by decide⟩

/-- An instruction behind the call is executed. -/
theorem late_executed (ha : Late entry v a) (hi : a.instruction? = some i)
    (hcontrol : i.isControl = false) (hexec : a.Executes s i b t) : Late entry v b := by
  have hlate := isLate ha hi
  have hsame := hexec.same
  have hpc : b.pc = a.pc + 1 := by
    rcases hexec.pc with ⟨hpc, -⟩ | ⟨target, htarget, -⟩
    · exact hpc
    · rw [hlate.target hcontrol] at htarget
      cases htarget
  have hkept : b.locals[1]? = some v := (hexec.locals hlate.store).trans ha.kept
  refine ⟨hsame.method.trans ha.method, hsame.regions.trans ha.regions, ?_, hkept, fun h34 => ?_, ?_⟩
  · rw [hpc]
    exact Nat.lt_succ_of_lt ha.pc
  · obtain rfl := hlate.load (by omega)
    cases hexec with
    | loadLocal hv =>
      rw [show (1 : UInt16).toNat = 1 from rfl, ha.kept] at hv
      cases hv
      exact ⟨_, rfl⟩
    | onTop hf => cases hf
    | onTop2 hf => cases hf
  · rw [hsame.pending]
    exact ha.pending

/-- A handler of the starter is behind the call. -/
theorem late_enterHandler {region : Region} {rest : List Region} {c : Completion}
    (hmethod : a.method = bridge entry) (hregions : a.regions = bridgeRegions)
    (hkept : a.locals[1]? = some v) (hrest : ∀ g ∈ region :: rest, g ∈ bridgeRegions)
    (hc : ∀ target, c = .jump target → IsBehind target) (hpending : PendingLate a.pending) :
    Late entry v (a.enterHandler region rest c) := by
  obtain ⟨hregion, hrest⟩ := List.forall_mem_cons.1 hrest
  obtain ⟨hpc, hne⟩ := isBehind_handlerStart hregion
  exact ⟨hmethod, hregions, hpc, hkept, fun h => absurd h hne,
    List.forall_mem_cons.2 ⟨⟨hrest, hc⟩, hpending⟩⟩

/-- A crash of the starter leads behind the call. -/
theorem late_raise {c : Crash} (hmethod : a.method = bridge entry) (hregions : a.regions = bridgeRegions)
    (hkept : a.locals[1]? = some v) (hpending : PendingLate a.pending)
    (h : Run.raise s steps c a [] = .more r) : r.callers = [] ∧ Late entry v r.current := by
  cases hcovering : a.covering with
  | nil =>
    rw [Run.raise_of_covering_nil hcovering] at h
    cases h
  | cons region rest =>
    rw [Run.raise_of_covering_cons hcovering] at h
    cases h
    refine ⟨rfl, late_enterHandler hmethod hregions hkept (fun g hg => ?_) (by simp) hpending⟩
    rw [← hregions]
    exact (List.mem_filter.1 (hcovering ▸ hg : g ∈ Activation.covering _)).1

/-- A step of the starter behind its call. -/
theorem late_step (ha : Late entry v r.current) (hcallers : r.callers = [])
    (hstep : r.StepsTo program limits (.more r')) : r'.callers = [] ∧ Late entry v r'.current := by
  obtain ⟨store, steps, a, callers⟩ := r
  obtain rfl : callers = [] := hcallers
  have ha : Late entry v a := ha
  have hraise : ∀ {s : Store} {c : Crash} {steps : Nat}, Progress.more r' =
      Run.raise s steps c a [] → r'.callers = [] ∧ Late entry v r'.current :=
    fun heq => late_raise ha.method ha.regions ha.kept ha.pending heq.symm
  generalize hp : Progress.more r' = p at hstep
  cases hstep with
  | limit | fellOff | faulted | callMissing | callShort | callRefused | retEmpty | leaveUnbound =>
    exact hraise hp
  | returned | handlerReturned | stray | crashDone => cases hp
  | executed _ hi hcontrol hexec =>
    cases hp
    exact ⟨rfl, late_executed ha hi hcontrol hexec⟩
  | callEntered _ hi => exact absurd rfl ((isLate ha hi).call _)
  | jumped _ hi htarget =>
    cases hp
    obtain ⟨hpc, hne⟩ := isBehind_target ha hi htarget
    exact ⟨rfl, ha.method, ha.regions, hpc, ha.kept, fun h => absurd h hne, ha.pending⟩
  | left _ hi htarget hleaving =>
    cases hp
    refine ⟨rfl, late_enterHandler ha.method ha.regions ha.kept (fun g hg => ?_) ?_ ha.pending⟩
    · rw [← ha.regions]
      exact (List.mem_filter.1 (hleaving ▸ hg : g ∈ Activation.leaving _ _)).1
    · rintro _ ⟨⟩
      exact isBehind_target ha hi htarget
  | nextHandler _ _ hpending hrest =>
    cases hp
    dsimp only at hpending
    obtain ⟨hfirst, houter⟩ := List.forall_mem_cons.1 (hpending ▸ ha.pending)
    exact ⟨rfl, late_enterHandler ha.method ha.regions ha.kept (hrest ▸ hfirst.1) hfirst.2 houter⟩
  | jumpDone _ _ hpending _ hcompletion =>
    cases hp
    dsimp only at hpending
    obtain ⟨hfirst, houter⟩ := List.forall_mem_cons.1 (hpending ▸ ha.pending)
    obtain ⟨hpc, hne⟩ := hfirst.2 _ hcompletion
    exact ⟨rfl, ha.method, ha.regions, hpc, ha.kept, fun h => absurd h hne, houter⟩

/-- What is behind the call stays there. -/
theorem past_step (h : Past entry v r) (hstep : r.StepsTo program limits (.more r')) :
    Past entry v r' := by
  rcases h with ⟨hcallers, ha⟩ |
    ⟨guests, host, hcallers, hmethod, hregions, hpc, hkept, hpending⟩
  · exact .inl (late_step ha hcallers hstep)
  · have hnone : PendingLate host.pending := by
      unfold PendingLate
      rw [hpending]
      simp
    cases hstep.bottom hcallers with
    | waiting guests hwaiting =>
      exact .inr ⟨guests, host, hwaiting, hmethod, hregions, hpc, hkept, hpending⟩
    | resumed value hresumed hcurrent =>
      refine .inl ⟨hresumed, ?_⟩
      rw [hcurrent]
      have hpc : ({ host with stack := value.toList ++ host.stack } : Activation).advance.pc = 26 :=
        congrArg (· + 1) hpc
      exact ⟨hmethod, hregions, by omega, hkept, by omega, hnone⟩
    | crashed hcovering hcrashed hcurrent =>
      refine .inl ⟨hcrashed, ?_⟩
      rw [hcurrent]
      refine late_enterHandler hmethod hregions hkept (fun g hg => ?_) (by simp) hnone
      rw [← hregions]
      exact (List.mem_filter.1 (hcovering ▸ hg : g ∈ Activation.covering _)).1

/-- Behind the call the starter does not come to it. -/
theorem always_past {p : Progress} (hp : ∀ r, p = .more r → Past entry v r) :
    Always program limits (Prepares program limits entry args) p := by
  refine .of_step (fun r r' h hstep => past_step h hstep) (fun r h hcallers hpc => ?_) hp
  rcases h with ⟨-, ha⟩ | ⟨guests, host, hwaiting, -⟩
  · have := ha.pc
    omega
  · rw [hcallers] at hwaiting
    simp at hwaiting

/-- Behind the call the starter gives the value back that it has kept. -/
theorem always_givesBack {p : Progress} (hp : ∀ r, p = .more r → Past entry v r) :
    Always program limits (GivesBack v) p := by
  refine .of_step (fun r r' h hstep => past_step h hstep) (fun r h hcallers hi => ?_) hp
  rcases h with ⟨-, ha⟩ | ⟨guests, host, hwaiting, -⟩
  · exact ha.given (pc_of_freeArgv ha.method hi)
  · rw [hcallers] at hwaiting
    simp at hwaiting

/-! ## In front of the call -/

/-- A fault in front of the call leads behind it. -/
theorem always_raised {r : Run} {c : Crash} {n : Nat} (hmethod : r.current.method = bridge entry)
    (hregions : r.current.regions = bridgeRegions) (hpending : r.current.pending = [])
    (hkept : r.current.locals[1]? = some v) (hpc : r.current.pc.beq 25 = false)
    (h : r.step program limits = Run.raise s n c r.current []) :
    Always program limits (Prepares program limits entry args) (.more r) := by
  refine .more (fun _ h => absurd h (Nat.ne_of_beq_eq_false hpc)) ?_
  rw [h]
  refine always_past fun r hr => .inl (late_raise hmethod hregions hkept ?_ hr)
  rw [hpending]
  nofun

/-- An instruction in front of the call is executed, or the run goes behind the call at once. -/
theorem always_executed (hmethod : a.method = bridge entry) (hregions : a.regions = bridgeRegions)
    (hpending : a.pending = []) (hkept : a.locals[1]? = some v) (hpc : a.pc.beq 25 = false)
    (hi : a.instruction? = some i) (hcontrol : i.isControl = false) (hexec : a.Executes s i b t)
    (h : Always program limits (Prepares program limits entry args) (.more ⟨t, steps + 1, b, []⟩)) :
    Always program limits (Prepares program limits entry args) (.more ⟨s, steps, a, []⟩) := by
  by_cases hlimit : steps < limits.steps
  · refine .more (fun _ h => absurd h (Nat.ne_of_beq_eq_false hpc)) ?_
    rwa [(Run.StepsTo.executed (r := ⟨s, steps, a, []⟩) hlimit hi hcontrol hexec).step_eq]
  · exact always_raised hmethod hregions hpending hkept hpc
      (Run.StepsTo.limit (r := ⟨s, steps, a, []⟩) (Nat.le_of_not_lt hlimit)).step_eq

/-- An instruction in front of the call faults. -/
theorem always_faulted {f : Fault} (hmethod : a.method = bridge entry)
    (hregions : a.regions = bridgeRegions) (hpending : a.pending = []) (hkept : a.locals[1]? = some v)
    (hpc : a.pc.beq 25 = false) (hi : a.instruction? = some i) (hcontrol : i.isControl = false)
    (hfails : Fails (a.execute i) s f t) :
    Always program limits (Prepares program limits entry args) (.more ⟨s, steps, a, []⟩) := by
  by_cases hlimit : steps < limits.steps
  · exact always_raised hmethod hregions hpending hkept hpc
      (Run.StepsTo.faulted (r := ⟨s, steps, a, []⟩) hlimit hi hcontrol hfails).step_eq
  · exact always_raised hmethod hregions hpending hkept hpc
      (Run.StepsTo.limit (r := ⟨s, steps, a, []⟩) (Nat.le_of_not_lt hlimit)).step_eq

/-- The call is made, or it is not: the run goes behind it. -/
theorem past_call {first argv id : Nat} (h : Calls entry args r first argv id)
    (hcallers : r.callers = []) (hstep : r.step program limits = .more r') :
    Past entry (.object argv) r' := by
  obtain ⟨arg, hcurrent⟩ := h.current
  have hsteps : r.StepsTo program limits (r.step program limits) := Run.stepsTo_step r
  rw [hstep] at hsteps
  obtain ⟨s, steps, a, callers⟩ := r
  obtain rfl : callers = [] := hcallers
  obtain rfl : a = _ := hcurrent
  have hraised : ∀ {c : Crash} {steps : Nat} {stack : List Value},
      Run.raise s steps c (frame entry arg #[.int (Int64.ofNat args.length), .object argv, .object id,
        .pointer ⟨.array id, 0, true⟩, .int 0] stack 25 []) [] = .more r' →
      Past entry (.object argv) r' :=
    fun hraise => .inl (late_raise rfl rfl rfl (by nofun) hraise)
  by_cases hlimit : steps < limits.steps
  · rcases hsteps.of_call hlimit rfl with ⟨c, hc⟩ | ⟨m, callee, -, -, hmore⟩
    · exact hraised hc.symm
    · cases hmore
      exact .inr ⟨[], _, rfl, rfl, rfl, rfl, rfl, rfl⟩
  · rw [(Run.StepsTo.limit (Nat.le_of_not_lt hlimit)).step_eq] at hstep
    exact hraised hstep

/-- The starter is at its call, with all done. -/
theorem always_calls {first argv id : Nat} (h : Calls entry args r first argv id)
    (hcallers : r.callers = []) :
    Always program limits (Prepares program limits entry args) (.more r) := by
  have hpast : ∀ r', r.step program limits = .more r' → Past entry (.object argv) r' :=
    fun r' => past_call h hcallers
  refine .more (fun _ _ => ⟨first, argv, id, h, .more (fun _ hi => ?_) (always_givesBack hpast)⟩)
    (always_past hpast)
  obtain ⟨arg, hcurrent⟩ := h.current
  have hpc := @pc_of_freeArgv entry _ (by rw [hcurrent]) hi
  rw [hcurrent] at hpc
  cases hpc

/-- The length of the array that lists the copies. -/
theorem executes_listLength {first id pins : Nat} {rest : List Value}
    (hs : s.heap.Lists args first id pins) (ha : a.stack = .object id :: rest) :
    a.Executes s .arrayLength
      { a with stack := .int (Int64.ofNat (args.length + 1)) :: rest }.advance s := by
  have h := Activation.Executes.arrayLength ha rfl (Heap.array_eq_ok.2 ⟨pins, hs.array⟩)
  rwa [Heap.Lists.size] at h

/-- The list for the entry function is pinned and put on the stack. -/
theorem always_pinning {arg : Value} {first argv id : Nat}
    (hargv : s.heap.Lists args first argv 0) (hid : s.heap.Lists args first id 0) (hne : argv ≠ id) :
    Always program limits (Prepares program limits entry args) (.more ⟨s, steps, frame entry arg
      #[.int (Int64.ofNat args.length), .object argv, .object id, .null, .int 0] [] 18 [], []⟩) := by
  have helement : Activation.elementReference s.heap .nativeString id 0 =
      .ok (.pointer ⟨.array id, 0, true⟩) := by
    unfold Activation.elementReference
    rw [Heap.array_eq_ok.2 ⟨0, hid.array⟩]
    show (if (_ || decide ((pointersTo first args.length ++ [Value.null]).toArray.size ≤ _)) = true
      then _ else _) = _
    rw [Heap.Lists.size]
    rfl
  let elements := (pointersTo first args.length ++ [Value.null]).toArray
  let heap : Heap := { s.heap with
    objects := s.heap.objects.setIfInBounds id (.array .nativeString elements 1) }
  have hpin : s.heap.pin id = .ok heap := Heap.changePins_eq_ok.2 ⟨_, _, 0, hid.array, rfl⟩
  have hstore := @Activation.yields_repin_pin s .null (.pointer ⟨.array id, 0, true⟩) id heap rfl
    rfl hpin
  refine always_executed rfl rfl rfl rfl rfl rfl rfl (.loadLocal rfl) ?_
  refine always_executed rfl rfl rfl rfl rfl rfl rfl .constInt32 ?_
  refine always_executed rfl rfl rfl rfl rfl rfl rfl (.elementAddress rfl rfl rfl helement) ?_
  refine always_executed rfl rfl rfl rfl rfl rfl rfl (.storeLocal rfl rfl hstore) ?_
  refine always_executed rfl rfl rfl rfl rfl rfl rfl (.loadLocal rfl) ?_
  refine always_executed rfl rfl rfl rfl rfl rfl rfl (.loadLocal rfl) ?_
  refine always_executed rfl rfl rfl rfl rfl rfl rfl (.onTop rfl rfl rfl) ?_
  exact always_calls ⟨⟨arg, rfl⟩, hne, hargv.setOther hne.symm,
    hid.setCopy (Array.getElem?_eq_some_iff.1 hid.array).1⟩ rfl

/-- The list for the entry function is made. -/
theorem always_copying {arg : Value} {first argv : Nat} (hargs : args.length + 1 < 2 ^ 31)
    (hargv : s.heap.Lists args first argv 0) :
    Always program limits (Prepares program limits entry args) (.more ⟨s, steps, frame entry arg
      #[.int (Int64.ofNat args.length), .object argv, .null, .null, .int 0] [] 7 [], []⟩) := by
  have hint : (Int64.ofNat (args.length + 1)).toInt = (args.length + 1 : Nat) :=
    Int64.toInt_ofNat_of_lt (by omega)
  have hconvert : (Value.int <| TargetType.narrow .int32 ·) <$>
      Value.asInt (.int (Int64.ofNat (args.length + 1))) =
        .ok (.int (Int64.ofNat (args.length + 1))) := by
    show Except.ok (Value.int (TargetType.narrow .int32 (Int64.ofNat (args.length + 1)))) = _
    rw [TargetType.narrow_int32_ofNat hargs]
  let zeros : Array Value := .replicate (args.length + 1) (.zeroOf .nativeString)
  let id := s.heap.objects.size
  let t : Store := { s with heap := s.heap.addObject (.array .nativeString zeros 0) }
  have hnew : Yields (Activation.makeArray .nativeString (.int (Int64.ofNat (args.length + 1)))) s
      (.object id) t := by
    unfold Activation.makeArray
    refine Yields.bind_iff.2 ⟨_, s, Access.yields_ofExcept.2 ⟨rfl, rfl⟩, ?_⟩
    rw [if_neg (by rw [Int64.lt_iff_toInt_lt, hint]; show ¬ ((args.length + 1 : Nat) : Int) < 0; omega)]
    dsimp only
    rw [hint, Int.toNat_natCast]
    rfl
  have ht : t.heap.Lists args first argv 0 := hargv.addObject
  have hne : argv ≠ id := Nat.ne_of_lt (Array.getElem?_eq_some_iff.1 hargv.array).1
  have hid : t.heap.objects[id]? = some (.array .nativeString zeros 0) :=
    Array.getElem?_push_size
  let elements := (pointersTo first args.length ++ [Value.null]).toArray
  let u : Store := { t with heap := { t.heap with
    objects := t.heap.objects.setIfInBounds id (.array .nativeString elements 0) } }
  have hcopied : Yields (Access.arrayCopy (.object argv) (.object id)
      (Int64.ofNat (args.length + 1))) t () u :=
    Access.yields_arrayCopy ht.array hid (by rw [hint, Heap.Lists.size])
      (by rw [Heap.Lists.size]; exact Array.size_replicate)
  have hcall : Yields (Access.callHelper .arrayCopy
      [.object argv, .object id, .int (Int64.ofNat (args.length + 1))]) t none u :=
    Yields.bind_iff.2 ⟨_, t, Access.yields_ofExcept.2 ⟨rfl, rfl⟩,
      Yields.bind_iff.2 ⟨(), u, hcopied, Yields.pure_iff.2 ⟨rfl, rfl⟩⟩⟩
  refine always_executed rfl rfl rfl rfl rfl rfl rfl (.loadLocal rfl) ?_
  refine always_executed rfl rfl rfl rfl rfl rfl rfl (executes_listLength hargv rfl) ?_
  refine always_executed rfl rfl rfl rfl rfl rfl rfl (.onTop rfl rfl hconvert) ?_
  refine always_executed rfl rfl rfl rfl rfl rfl rfl (.newArray rfl hnew) ?_
  refine always_executed rfl rfl rfl rfl rfl rfl rfl
    (.storeLocal rfl rfl (Yields.pure_iff.2 ⟨rfl, rfl⟩)) ?_
  refine always_executed rfl rfl rfl rfl rfl rfl rfl (.loadLocal rfl) ?_
  refine always_executed rfl rfl rfl rfl rfl rfl rfl (.loadLocal rfl) ?_
  refine always_executed rfl rfl rfl rfl rfl rfl rfl (.loadLocal rfl) ?_
  refine always_executed rfl rfl rfl rfl rfl rfl rfl (executes_listLength ht rfl) ?_
  refine always_executed rfl rfl rfl rfl rfl rfl rfl (.onTop rfl rfl hconvert) ?_
  refine always_executed rfl rfl rfl rfl rfl rfl rfl (.callHelper (Nat.le_refl 3) hcall) ?_
  exact always_pinning (s := u) (ht.setOther hne.symm)
    (ht.setCopy (Array.getElem?_eq_some_iff.1 hid).1) hne

/-- The length of a list that is too long for 32 bits becomes negative, and there is no call. -/
theorem always_overflowing {arg : Value} {first argv : Nat} (hargs : args.length + 1 = 2 ^ 31)
    (hargv : s.heap.Lists args first argv 0) :
    Always program limits (Prepares program limits entry args) (.more ⟨s, steps, frame entry arg
      #[.int (Int64.ofNat args.length), .object argv, .null, .null, .int 0] [] 7 [], []⟩) := by
  have hconvert : (Value.int <| TargetType.narrow .int32 ·) <$>
      Value.asInt (.int (Int64.ofNat (args.length + 1))) = .ok (.int (-2147483648)) := by
    rw [hargs]
    rfl
  refine always_executed rfl rfl rfl rfl rfl rfl rfl (.loadLocal rfl) ?_
  refine always_executed rfl rfl rfl rfl rfl rfl rfl (executes_listLength hargv rfl) ?_
  refine always_executed rfl rfl rfl rfl rfl rfl rfl (.onTop rfl rfl hconvert) ?_
  exact always_faulted (t := s) rfl rfl rfl rfl rfl rfl rfl rfl

/-- A starter that gets strings from the host comes to its call with all done. -/
theorem always_started {id pins : Nat} {ids : List Nat} (hargs : args.length < 2 ^ 31)
    (hid : s.heap.objects[id]? = some (.array .string (ids.map Value.object).toArray pins))
    (hlength : ids.length = args.length)
    (hstrings : ∀ p ∈ ids.zip args, s.heap.objects[p.1]? = some (.string p.2)) :
    Always program limits (Prepares program limits entry args) (.more ⟨s, steps,
      frame entry (.object id) #[.int 0, .null, .null, .null, .int 0] [] 0 [], []⟩) := by
  obtain ⟨t, hcall, ht⟩ := Access.lists_argsToArgv hid hlength hstrings
  have hsize : (ids.map Value.object).toArray.size = args.length := by simpa using hlength
  have hcount : (Activation.Executes (frame entry (.object id)
      #[.int 0, .null, .null, .null, .int 0] [.object id] 1 []) s .arrayLength
      (frame entry (.object id) #[.int 0, .null, .null, .null, .int 0]
        [.int (Int64.ofNat args.length)] 2 []) s) := by
    have h := @Activation.Executes.arrayLength (frame entry (.object id)
      #[.int 0, .null, .null, .null, .int 0] [.object id] 1 []) s _ _ _ _ _ rfl rfl
      (Heap.array_eq_ok.2 ⟨pins, hid⟩)
    rwa [hsize] at h
  have hnarrow : TargetType.narrow .int32 (Int64.ofNat args.length) = Int64.ofNat args.length :=
    TargetType.narrow_int32_ofNat hargs
  have hconvert : (Value.int <| TargetType.narrow .int32 ·) <$>
      Value.asInt (.int (Int64.ofNat args.length)) = .ok (.int (Int64.ofNat args.length)) := by
    show Except.ok (Value.int (TargetType.narrow .int32 (Int64.ofNat args.length))) = _
    rw [hnarrow]
  have hcounted : Activation.Executes (frame entry (.object id)
      #[.int 0, .null, .null, .null, .int 0] [.int (Int64.ofNat args.length)] 3 []) s (.storeLocal 0)
      (frame entry (.object id)
        #[.int (Int64.ofNat args.length), .null, .null, .null, .int 0] [] 4 []) s := by
    have h := @Activation.Executes.storeLocal (frame entry (.object id)
      #[.int 0, .null, .null, .null, .int 0] [.int (Int64.ofNat args.length)] 3 []) s 0 _ _ _ s rfl rfl
      (Yields.pure_iff.2 ⟨rfl, rfl⟩)
    have hlocals : (#[.int 0, .null, .null, .null, .int 0] : Array Value).setIfInBounds 0
        (.int (TargetType.narrow .int32 (Int64.ofNat args.length))) =
          #[.int (Int64.ofNat args.length), .null, .null, .null, .int 0] := by
      rw [hnarrow]
      rfl
    rw [← hlocals]
    exact h
  refine always_executed rfl rfl rfl rfl rfl rfl rfl (.loadArgument rfl) ?_
  refine always_executed rfl rfl rfl rfl rfl rfl rfl hcount ?_
  refine always_executed rfl rfl rfl rfl rfl rfl rfl (.onTop rfl rfl hconvert) ?_
  refine always_executed rfl rfl rfl rfl rfl rfl rfl hcounted ?_
  refine always_executed rfl rfl rfl rfl rfl rfl rfl (.loadArgument rfl) ?_
  refine always_executed rfl rfl rfl rfl rfl rfl rfl (.callHelper (Nat.le_refl 1) hcall) ?_
  refine always_executed rfl rfl rfl rfl rfl rfl rfl
    (.storeLocal rfl rfl (Yields.pure_iff.2 ⟨rfl, rfl⟩)) ?_
  by_cases hroom : args.length + 1 < 2 ^ 31
  · exact always_copying hroom ht
  · exact always_overflowing (by omega) ht

end ManagedC.EntryPoint
