import ManagedC.Proofs.Program.CallTargets
import ManagedC.Proofs.Startup.ExitCode
import ManagedC.Proofs.Startup.Subscripts
import ManagedC.Syntax.Construct

/-!
# What the entry function sees

A program that is started with strings by a starter calls its entry function with their number and a
list of native copies, reads them through it, and exits with what the function returns. Main
statement: `TranslationUnit.entersMain`.
-/

namespace ManagedC

/-! ## The call at the bottom -/

/-- The call at the bottom is one of a method. -/
def Run.Rests (M : Method) (r : Run) : Prop :=
  (r.callers = [] ∧ r.current.method = M) ∨
    ∃ guests host, r.callers = guests ++ [host] ∧ host.method = M

/-- The call at the bottom stays one of its method. -/
theorem Run.StepsTo.rests {program : Module} {limits : Limits} {M : Method} {r r' : Run}
    (h : r.StepsTo program limits (.more r')) (hr : r.Rests M) : r'.Rests M := by
  rcases hr with ⟨hcallers, hmethod⟩ | ⟨guests, host, hcallers, hmethod⟩
  · obtain ⟨store, steps, a, callers⟩ := r
    obtain rfl : callers = [] := hcallers
    have hraise : ∀ {s : Store} {c : Crash} {steps : Nat},
        Progress.more r' = Run.raise s steps c a [] → r'.Rests M := by
      intro s c steps heq
      cases hcovering : a.covering with
      | nil =>
        rw [Run.raise_of_covering_nil hcovering] at heq
        cases heq
      | cons region rest =>
        rw [Run.raise_of_covering_cons hcovering] at heq
        cases heq
        exact .inl ⟨rfl, hmethod⟩
    generalize hp : Progress.more r' = p at h
    cases h with
    | limit | fellOff | faulted | callMissing | callShort | callRefused | retEmpty | leaveUnbound =>
      exact hraise hp
    | returned | handlerReturned | stray | crashDone => cases hp
    | executed _ _ _ hexec =>
      cases hp
      exact .inl ⟨rfl, hexec.same.method.trans hmethod⟩
    | callEntered =>
      cases hp
      exact .inr ⟨[], _, rfl, hmethod⟩
    | jumped | left | nextHandler | jumpDone =>
      cases hp
      exact .inl ⟨rfl, hmethod⟩
  · cases h.bottom hcallers with
    | waiting guests hwaiting => exact .inr ⟨guests, host, hwaiting, hmethod⟩
    | resumed value hresumed hcurrent => exact .inl ⟨hresumed, hcurrent ▸ hmethod⟩
    | crashed _ hcrashed hcurrent => exact .inl ⟨hcrashed, hcurrent ▸ hmethod⟩

/-! ## The entry function -/

namespace Program.Built

variable {name : String} {fs : List CompiledFunction} {p : Program} {f g : CompiledFunction}

/-- A program without an entry point has no entry function. -/
theorem isEntry_of_entryPoint (h : Built name fs p) (hfree : p.module.entryPoint = none)
    (hf : f ∈ fs) : f.unit.isEntry = false := by
  induction h with
  | empty => cases hf
  | function _ _ he ih =>
    rcases List.mem_append.1 hf with hf | hf
    · exact ih hfree hf
    · obtain rfl := List.mem_singleton.1 hf
      exact he
  | entry | started => cases hfree

/-- A program has one entry function. -/
theorem entry_unique (h : Built name fs p) (hf : f ∈ fs) (hg : g ∈ fs)
    (hfe : f.unit.isEntry = true) (hge : g.unit.isEntry = true) : f = g := by
  have hlast : ∀ {fs : List CompiledFunction} {p : Program} {h : CompiledFunction}, Built name fs p →
      p.module.entryMethod? = none → ∀ {f}, f ∈ fs ++ [h] → f.unit.isEntry = true → f = h := by
    intro fs p h hp hfree f hf hfe
    rcases List.mem_append.1 hf with hf | hf
    · rw [hp.isEntry_of_entryPoint (hp.entryPoint_eq_none hfree) hf] at hfe
      cases hfe
    · exact List.mem_singleton.1 hf
  induction h with
  | empty => cases hf
  | @function fs p h hp _ he ih =>
    have hold : ∀ {f : CompiledFunction}, f ∈ fs ++ [h] → f.unit.isEntry = true → f ∈ fs := by
      intro f hf hfe
      rcases List.mem_append.1 hf with hf | hf
      · exact hf
      · obtain rfl := List.mem_singleton.1 hf
        rw [he] at hfe
        cases hfe
    exact ih (hold hf hfe) (hold hg hge)
  | entry hp _ _ hfree | started hp _ _ hfree =>
    exact (hlast hp hfree hf hfe).trans (hlast hp hfree hg hge).symm

/-- The method of the entry function is found by its name. -/
theorem findMethod_entry (h : Built name fs p) (hf : f ∈ fs) (hfe : f.unit.isEntry = true) :
    p.module.findMethod? EntryPoint.functionName = some f.method := by
  have hname : f.method.name = EntryPoint.functionName :=
    f.method_name.trans (beq_iff_eq.1 hfe)
  cases hfound : p.module.findMethod? EntryPoint.functionName with
  | none =>
    have := List.find?_eq_none.1 hfound f.method (by simpa using h.method_mem hf)
    simp [hname] at this
  | some m =>
    obtain ⟨j, hj, hm, -⟩ := Module.findMethod?_eq_some hfound
    rcases h.mem_methods (Array.mem_of_getElem? hj) with ⟨g, hg, rfl⟩ | ⟨g, -, -, hstarter⟩
    · have hge : g.unit.isEntry = true := beq_iff_eq.2 (g.method_name.symm.trans hm)
      rw [h.entry_unique hf hg hfe hge]
    · obtain ⟨-, rfl⟩ := EntryPoint.starter_eq_ok hstarter
      exact absurd (show EntryPoint.starterName = EntryPoint.functionName from hm) (by decide)

end Program.Built

namespace EntryPoint

/-- The starter calls one method. -/
theorem pc_of_call {entry target : MethodRef} {a : Activation} (hmethod : a.method = bridge entry)
    (hi : a.instruction? = some (.call target)) : a.pc = 25 ∧ target = entry := by
  unfold Activation.instruction? at hi
  rw [hmethod] at hi
  have hall : ∀ n : Nat, n < 38 → ((bridge entry).body.instructions[n]?.any fun i => i.isControl &&
      match i with
      | .call _ => true
      | _ => false) = true → n = 25 := of_decide_eq_true rfl
  have hpc : a.pc = 25 := hall _ (Array.getElem?_eq_some_iff.1 hi).1 (by rw [hi]; rfl)
  rw [hpc] at hi
  cases hi
  exact ⟨hpc, rfl⟩

/-- The method of an entry function that a starter can call. -/
theorem method_bridgeable {f : CompiledFunction} (h : isBridgeable f.signature.method = true) :
    f.method.parameters.length = 2 ∧ f.method.returnType ≠ .void := by
  rw [← f.ref_method] at h
  unfold isBridgeable at h
  split at h
  · rename_i count vector heq
    have hlength := congrArg List.length heq
    have hparameters : f.method.ref.parameterTypes = f.method.parameters.map (·.type) := rfl
    rw [hparameters, List.length_map] at hlength
    refine ⟨hlength, fun hvoid => ?_⟩
    have hreturn : f.method.ref.returnType = f.method.returnType := rfl
    rw [hreturn, hvoid] at h
    simp at h
  · cases h

end EntryPoint

namespace Session

/-- The machine comes to a run when a program is started with strings. -/
def Starting (s : Session) (args : List String) (r : Run) : Prop :=
  ∃ m a, s.program.entryMethod? = some m ∧
    Activation.enter m [(hostArguments args s.store).1] (hostArguments args s.store).2.depth
      s.limits.depth = .ok a ∧
    Run.Leads s.program s.limits ⟨(hostArguments args s.store).2.opened, s.steps, a, []⟩ r

/-- The entry function is called from a run on, sees strings and its result is the exit code. -/
structure EntersMain (s : Session) (args : List String) (main : Method) (first id : Nat)
    (r entered : Run) : Prop where
  /-- The call begins. -/
  step : r.step s.program s.limits = .more entered
  /-- It is one of the entry function. -/
  method : entered.current.method = main
  /-- It starts at the first instruction. -/
  pc : entered.current.pc = 0
  /-- The number of strings, and an unmanaged pointer to the start of the list. -/
  arguments : entered.current.arguments =
    #[.int (Int64.ofNat args.length), .pointer ⟨.array id, 0, false⟩]
  /-- Only the starter waits for it. -/
  callers : entered.callers.length = 1
  /-- Memory is as it was at the call, which is counted. -/
  store : entered.store = r.store.opened
  /-- As long as no memory is written, subscripts of the list read the strings. -/
  reads : ∀ {span span' span'' : Span} {name : String} {i j : Expression} {type : CType}
    {M : Method} {x : Variable} {kind : PrimitiveType} {u v : Scope}, kind.IsCharacter →
    u.findVariable? name = some x → x.type = .pointer (.pointer (.primitive kind)) →
    Emission.Code u
      (.value (.subscript span (.subscript span' (.identifier span'' name) i) j) type) v →
    v.assembler.method.Extends M →
    ∃ a b c, (∃ type, Emission.Code (u.append [] [x.load]) (.value i type) a) ∧
      (∃ type, Emission.Code b (.value j type) c) ∧
      ∀ r', entered.Unwritten s.program s.limits r' → r'.callers ≠ [] →
        r'.current.method = M → r'.current.pc = u.offset →
        x.valueIn r'.current = some (.pointer ⟨.array id, 0, false⟩) → r'.steps < s.limits.steps →
        r'.ReadsElement s.program s.limits args first (.pointer ⟨.array id, 0, false⟩) kind x u a b c v
  /-- What the function returns is the exit code. -/
  returns : ∀ r' v rest, entered.Leads s.program s.limits r' → r'.callers.length = 1 →
    r'.current.method = main → r'.current.instruction? = some .ret →
    r'.current.stack = .int v :: rest → r'.steps + 13 ≤ s.limits.steps →
    ∃ s', s.runEntry args = some (.ok v.toInt32, s')

end Session

namespace EntryPoint

variable {program : Module} {limits : Limits} {entry : MethodRef} {args : List String}
  {r entered : Run} {first argv id : Nat}

/-- What a call of the entry function leads to: calls that cannot do harm go on above the starter, or
the starter is alone and behind its call. -/
theorem hosted_or_late (hprogram : program.Hospitable) {host : Activation} {s : Store} {r' : Run}
    (hhosted : entered.Hosted (lent id) [host] s) (hpast : Past entry (.object argv) entered)
    (hleads : entered.Leads program limits r') :
    r'.Hosted (lent id) [host] s ∨ r'.callers = [] := by
  have hkept : (r'.Hosted (lent id) [host] s ∨ r'.callers = []) ∧ Past entry (.object argv) r' := by
    refine hleads.keeps (Q := fun r => (r.Hosted (lent id) [host] s ∨ r.callers = []) ∧
      Past entry (.object argv) r) ?_ ⟨.inl hhosted, hpast⟩
    rintro r₁ r₂ - ⟨hhosted | hcallers, hpast⟩ hstep
    · exact ⟨hhosted.step hprogram (fun _ h => h) hstep, past_step hpast hstep⟩
    · refine ⟨.inr ?_, past_step hpast hstep⟩
      rcases hpast with ⟨-, hlate⟩ | ⟨guests, host, hwaiting, -⟩
      · exact (late_step hlate hcallers hstep).1
      · rw [hcallers] at hwaiting
        simp at hwaiting
  exact hkept.1

/-- What the lists of native copies are to the starter after its call. -/
theorem Calls.keeps (h : Calls entry args r first argv id) :
    Keeps args first argv id r.store.heap where
  argv := h.original.array
  blocks := by
    intro k hlow hhigh
    have hlt : k - first < args.length := by omega
    have hcopy := h.original.copies (k - first) args[k - first] (List.getElem?_eq_getElem hlt)
    rw [Nat.add_sub_cancel' hlow] at hcopy
    exact ⟨_, hcopy⟩
  pinned := ⟨_, h.copy.array⟩

/-- The starter while it waits for the entry function. -/
abbrev calling (entry : MethodRef) (arg : Value) (args : List String) (argv id : Nat) : Activation :=
  frame entry arg #[.int (Int64.ofNat args.length), .object argv, .object id,
    .pointer ⟨.array id, 0, true⟩, .int 0] [] 25 []

/-- The call of the entry function when it begins. -/
abbrev called (main : Method) (args : List String) (id : Nat) : Activation :=
  ⟨main, [], #[.int (Int64.ofNat args.length), .pointer ⟨.array id, 0, false⟩],
    main.locals.map fun v => .zeroOf v.type, [], 0, []⟩

/-- The call of the entry function begins, and what it can reach is lent to it. -/
theorem hosted_called {main : Method} (hmain : program.findMethod? entry.name = some main)
    (hparameters : main.parameters.length = 2) (hharmless : main.Harmless)
    (h : Calls entry args r first argv id) (hcallers : r.callers = [])
    (hlimit : r.steps < limits.steps) (hdepth : r.store.depth < limits.depth) : ∃ arg,
      r.step program limits =
        .more ⟨r.store.opened, r.steps + 1, called main args id, [calling entry arg args argv id]⟩ ∧
      Run.Hosted (lent id) [calling entry arg args argv id] r.store
        ⟨r.store.opened, r.steps + 1, called main args id, [calling entry arg args argv id]⟩ := by
  obtain ⟨arg, hcurrent⟩ := h.current
  have hcopy := h.copy
  obtain ⟨s, steps, a, callers⟩ := r
  obtain rfl : callers = [] := hcallers
  obtain rfl : a = _ := hcurrent
  have henter : Activation.enter main
      [.int (Int64.ofNat args.length), .pointer ⟨.array id, 0, false⟩] s.depth limits.depth =
        .ok (called main args id) :=
    Activation.enter_eq_ok.2 ⟨hparameters.symm, hdepth, [], by rw [hharmless.handlers]; rfl, rfl⟩
  refine ⟨arg, ?_, ?_⟩
  · have hstep := @Run.StepsTo.callEntered program limits ⟨s, steps, frame entry arg
      #[.int (Int64.ofNat args.length), .object argv, .object id, .pointer ⟨.array id, 0, true⟩, .int 0]
      [.pointer ⟨.array id, 0, false⟩, .int (Int64.ofNat args.length)] 25 [], []⟩ entry main _ hlimit rfl
      hmain (Nat.le_of_eq hparameters) (by rw [hparameters]; exact henter)
    rw [hstep.step_eq, hparameters]
    rfl
  · have harguments : ∀ v ∈ ([.int (Int64.ofNat args.length), .pointer ⟨.array id, 0, false⟩] :
        List Value), v.Within (lent id) := by
      simp [Value.Within, lent]
    have hheap : s.heap.Within (lent id) := by
      rintro id' element elements pins rfl ho v hv
      rw [hcopy.array] at ho
      cases ho
      rcases List.mem_append.1 (List.mem_toArray.1 hv) with hv | hv
      · obtain ⟨block, -, rfl⟩ := List.mem_map.1 hv
        trivial
      · obtain rfl := List.mem_singleton.1 hv
        trivial
    exact ⟨Activation.modest_or_restarted_of_enter (.inl hharmless) harguments henter,
      ⟨[], rfl, by simp⟩, hheap, .opened (.refl _ s)⟩

end EntryPoint

/-- The run that ends with a value is that of a program that exits with it. -/
theorem Session.runEntry_of_endsWith {s : Session} {args : List String} {r : Run} {v : Int64}
    {entry : MethodRef}
    (hentry : s.program.entryMethod? = some (EntryPoint.bridge entry)) (hr : s.Starting args r)
    (hends : Progress.EndsWith s.program s.limits (.int (TargetType.narrow .int32 v)) (.more r)) :
    ∃ s', s.runEntry args = some (.ok v.toInt32, s') := by
  obtain ⟨m, a, hm, henter, hleads⟩ := hr
  obtain rfl : EntryPoint.bridge entry = m := Option.some.inj (hentry.symm.trans hm)
  obtain ⟨⟨_, store, steps⟩, hends, rfl⟩ := hends
  have hrun := runEntry_bridge hentry henter (hleads.ends_iff.2 hends)
  rw [EntryPoint.exitCodeOf_narrow] at hrun
  exact ⟨_, hrun⟩

/-- A program that is started with strings by a starter calls its entry function, if it comes to the
call and may make it, with what the function needs to read the strings; and it exits with what the
function returns, unless steps run out. -/
theorem TranslationUnit.entersMain {unit : TranslationUnit} {name : String} {m : Module}
    (hcompile : unit.compile name = .ok m)
    (hentry : m.entryMethod?.map (·.name) = some EntryPoint.starterName) {s : Session}
    (hs : s.program = m) {args : List String} (hargs : args.length < 2 ^ 31) {r : Run}
    (hr : s.Starting args r) (hcallers : r.callers = []) {target : MethodRef}
    (hcall : r.current.instruction? = some (.call target)) : ∃ main first argv id,
      m.findMethod? EntryPoint.functionName = some main ∧ target = main.ref ∧
      EntryPoint.Calls target args r first argv id ∧
      Progress.Always m s.limits (EntryPoint.GivesBack (.object argv)) (.more r) ∧
      (r.steps < s.limits.steps → s.store.depth + 1 < s.limits.depth →
        ∃ entered, s.EntersMain args main first id r entered) := by
  subst hs
  obtain ⟨fs, p, hbuilt, hp, -⟩ := built_of_compile hcompile
  have hprogram : s.program.Hospitable := hp ▸ hbuilt.hospitable
  obtain ⟨starter, hstarter, hname⟩ := Option.map_eq_some_iff.1 hentry
  obtain ⟨f, hf, hfe, ⟨rfl, -⟩ | hbridge⟩ := hbuilt.entryMethod (hp ▸ hstarter)
  · rw [f.method_name, (beq_iff_eq.1 hfe : f.unit.name = _)] at hname
    exact absurd hname (by decide)
  obtain ⟨hbridgeable, rfl⟩ := EntryPoint.starter_eq_ok hbridge
  obtain ⟨hparameters, hreturn⟩ := EntryPoint.method_bridgeable hbridgeable
  have hharmless : f.method.Harmless :=
    ⟨fun _ _ => f.code.isPlain, f.code.unpinned, f.code.handlers⟩
  have hfound : s.program.findMethod? EntryPoint.functionName = some f.method :=
    hp ▸ hbuilt.findMethod_entry hf hfe
  -- The starter comes to its call with all done.
  obtain ⟨m, a, hm, henter, hleads⟩ := id hr
  obtain rfl : EntryPoint.bridge f.signature.method = m := Option.some.inj (hstarter.symm.trans hm)
  obtain ⟨host, ids, objects, hhost, hlength, hids, hstrings⟩ :=
    Session.exists_hostArguments args s.store
  have hcounts := hleads.counts (Run.counts_enter a (Session.hostArguments args s.store).2 s.steps)
  rw [Run.Counts, hcallers] at hcounts
  rw [hhost] at henter hleads
  obtain ⟨-, -, regions, hregions, rfl⟩ := Activation.enter_eq_ok.1 henter
  cases hregions
  rw [EntryPoint.zeros_bridge] at hleads
  have hmethod : r.current.method = EntryPoint.bridge f.signature.method := by
    have hrests := hleads.keeps (fun _ _ _ hrests hstep => hstep.rests hrests) (.inl ⟨rfl, rfl⟩)
    rcases hrests with ⟨-, hmethod⟩ | ⟨guests, host, hwaiting, -⟩
    · exact hmethod
    · rw [hcallers] at hwaiting
      simp at hwaiting
  obtain ⟨hpc, rfl⟩ := EntryPoint.pc_of_call hmethod hcall
  obtain ⟨first, argv, id, hcalls, hgives⟩ :=
    EntryPoint.always_started hargs hids hlength hstrings _ r rfl hleads hcallers hpc
  refine ⟨f.method, first, argv, id, hfound, f.ref_method.symm, hcalls, hgives,
    fun hlimit hdepth => ?_⟩
  have hname : f.signature.method.name = EntryPoint.functionName :=
    f.ref_name.trans (beq_iff_eq.1 hfe)
  obtain ⟨arg, hstep, hhosted⟩ := EntryPoint.hosted_called (hname ▸ hfound) hparameters hharmless hcalls
    hcallers hlimit (hcounts ▸ hdepth)
  refine ⟨_, ⟨hstep, rfl, rfl, rfl, rfl, rfl, ?_, ?_⟩⟩
  · intro span span' span'' name i j type M x kind u v hkind hx hxtype hcode hM
    obtain ⟨a, b, c, hi, hj, hreads⟩ := Expression.readsElement hkind hx hxtype hcode hM
    refine ⟨a, b, c, hi, hj, fun r' hunwritten hcallers hmethod hpc hvalue hlimit =>
      hreads hcallers hmethod hpc hvalue (fun r'' hunwritten' => ?_) hlimit⟩
    have hstore := (hhosted.unwritten hprogram (fun _ h => h) (hunwritten.trans hunwritten')).1
    exact hcalls.copy.congr (by rw [hstore, Store.opened_heap]) (by rw [hstore, Store.opened_heap])
  · intro r' v rest hleads' hlength hmethod hi hstack hlimit
    have hpast := EntryPoint.past_call hcalls hcallers hstep
    rcases EntryPoint.hosted_or_late hprogram hhosted hpast hleads' with hhosted' | hnone
    · have hends : Progress.EndsWith s.program s.limits _ (.more r') :=
        EntryPoint.ends_returned hcalls.keeps hcalls.distinct hhosted' hlength hi (hmethod ▸ hreturn)
          hstack hlimit
      refine Session.runEntry_of_endsWith hstarter hr ?_
      obtain ⟨o, hends, hresult⟩ := hends
      have hentered : r.Leads s.program s.limits _ := .step trivial hstep hleads'
      exact ⟨o, hentered.ends_iff.2 hends, hresult⟩
    · rw [hnone] at hlength
      cases hlength

/-- The machine some steps after a program is started with strings, if the run has not ended. -/
def Session.started? (s : Session) (args : List String) (n : Nat) : Option Run := do
  let m ← s.program.entryMethod?
  let (arguments, store) := hostArguments args s.store
  let a ← (Activation.enter m [arguments] store.depth s.limits.depth).toOption
  Run.after? s.program s.limits n ⟨store.opened, s.steps, a, []⟩

theorem Session.starting_of_started {s : Session} {args : List String} {n : Nat} {r : Run}
    (h : s.started? args n = some r) : s.Starting args r := by
  obtain ⟨m, hm, h⟩ := Option.bind_eq_some_iff.1 h
  obtain ⟨a, ha, h⟩ := Option.bind_eq_some_iff.1 h
  exact ⟨m, a, hm, Except.of_toOption ha, Run.leads_of_after h⟩

namespace TranslationUnit

/-- A program that exits with the first character of its first argument. -/
def firstCharacter : TranslationUnit where
  functions := [Construct.intFunction "main" (some Construct.commandLineParameters)
    [Construct.ret (some (Construct.subscript (Construct.subscript (Construct.name "argv")
      (Construct.int 0)) (Construct.int 0)))]]

/-- Where the starter of that program calls, and where its entry function returns. -/
theorem returns_firstCharacter :
    ((firstCharacter.compile "first").toOption.any fun m =>
      (({ program := m, limits := ⟨100, 2⟩ } : Session).started? ["a"] 25).any fun r =>
        (r.after? m ⟨100, 2⟩ 13).any fun r' => decide (
          m.entryMethod?.map (·.name) = some EntryPoint.starterName ∧ r.callers = [] ∧
          r.current.instruction? =
            some (.call ⟨"main", .int32, [.int32, .pointer (.pointer .uint8)]⟩) ∧ r.steps = 25 ∧
          m.findMethod? "main" = some r'.current.method ∧ r'.callers.length = 1 ∧
          r'.current.instruction? = some .ret ∧ r'.current.stack = [.int 97] ∧ r'.steps = 38)) =
      true := by
  decide +kernel

/-- That program is started with a string that it reads, and exits with its first character. -/
theorem entersMain_firstCharacter : ∃ m r main first id entered,
    firstCharacter.compile "first" = .ok m ∧
      let s : Session := { program := m, limits := ⟨100, 2⟩ }
      s.Starting ["a"] r ∧ s.EntersMain ["a"] main first id r entered ∧
        ∃ s', s.runEntry ["a"] = some (.ok 97, s') := by
  obtain ⟨m, hm, h⟩ := (Option.any_eq_true _ _).1 returns_firstCharacter
  obtain ⟨r, hr, h⟩ := (Option.any_eq_true _ _).1 h
  obtain ⟨r', hr', h⟩ := (Option.any_eq_true _ _).1 h
  obtain ⟨hentry, hcallers, hcall, hsteps, hmethod, hlength, hret, hstack, hsteps'⟩ :=
    of_decide_eq_true h
  have hcompile := Except.of_toOption hm
  obtain ⟨main, first, -, id, hmain, -, -, -, henters⟩ := @entersMain firstCharacter "first" m hcompile
    hentry { program := m, limits := ⟨100, 2⟩ } rfl ["a"] (by decide) r
    (Session.starting_of_started hr) hcallers _ hcall
  obtain ⟨entered, henters⟩ := henters (hsteps ▸ (by decide : 25 < 100)) (by decide : 1 < 2)
  have hleads : entered.Leads m ⟨100, 2⟩ r' := by
    rw [Run.after?, henters.step] at hr'
    exact Run.leads_of_after hr'
  exact ⟨m, r, main, first, id, entered, hcompile, Session.starting_of_started hr, henters,
    henters.returns r' 97 [] hleads hlength (Option.some.inj (hmethod.symm.trans hmain)) hret hstack
      (hsteps' ▸ (by decide : 38 + 13 ≤ 100))⟩

/-- Where the starter of that program calls when no second call may begin. -/
theorem refuses_firstCharacter :
    ((firstCharacter.compile "first").toOption.any fun m =>
      let s : Session := { program := m, limits := ⟨100, 1⟩ }
      (s.started? ["a"] 25).any fun r => (r.after? m ⟨100, 1⟩ 1).any fun r' => decide (
        m.entryMethod?.map (·.name) = some EntryPoint.starterName ∧ r.callers = [] ∧
        r.current.instruction? =
          some (.call ⟨"main", .int32, [.int32, .pointer (.pointer .uint8)]⟩) ∧
        r'.callers = [] ∧ (s.runEntry ["a"]).map (fun x => (x.1.toOption)) = some none)) = true := by
  decide +kernel

/-- When no second call may begin, the starter comes to its call, but the entry function is not called,
and the program has no exit code. -/
theorem enters_refused : ∃ m r target, firstCharacter.compile "first" = .ok m ∧
    m.entryMethod?.map (·.name) = some EntryPoint.starterName ∧
      let s : Session := { program := m, limits := ⟨100, 1⟩ }
      s.Starting ["a"] r ∧ r.callers = [] ∧ r.current.instruction? = some (.call target) ∧
        (∀ main first id entered, ¬ s.EntersMain ["a"] main first id r entered) ∧
        ∀ code s', s.runEntry ["a"] ≠ some (.ok code, s') := by
  obtain ⟨m, hm, h⟩ := (Option.any_eq_true _ _).1 refuses_firstCharacter
  obtain ⟨r, hr, h⟩ := (Option.any_eq_true _ _).1 h
  obtain ⟨r', hr', h⟩ := (Option.any_eq_true _ _).1 h
  obtain ⟨hentry, hcallers, hcall, hcallers', hrun⟩ := of_decide_eq_true h
  refine ⟨m, r, _, Except.of_toOption hm, hentry, Session.starting_of_started hr, hcallers, hcall,
    fun main first id entered henters => ?_, fun code s' heq => ?_⟩
  · rw [Run.after?, henters.step] at hr'
    obtain rfl : entered = r' := Option.some.inj hr'
    have hlength := henters.callers
    rw [hcallers'] at hlength
    cases hlength
  · rw [heq] at hrun
    cases hrun

end TranslationUnit

end ManagedC
