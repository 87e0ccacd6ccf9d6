import ManagedC.Proofs.Stack.Runs

/-!
# Compiled programs are well-formed

A compiled program whose functions have names of their own never faults in a way that says that the
program is malformed: no value, slot, label, method, object or block is missing, and handlers end as
they should. The only exception is the source's fault: a function that owes a value may run into its
end. Main statement: `TranslationUnit.runEntry_wellFormed`.
-/

namespace ManagedC

namespace Session

/-- The sessions with a program in which it has been started some number of times. -/
inductive Reached (program : Module) : Session → Prop where
  | fresh {limits : Limits} : Reached program { program := program, limits := limits }
  /-- The program was started once more. -/
  | again {s s' : Session} {args : List String} {result : Except Failure Int32} :
    Reached program s → s.runEntry args = some (result, s') → Reached program s'

variable {s s' : Session} {args : List String} {program : Module}

/-- The strings that the host passes exist. -/
theorem keeps_hostArguments (args : List String) (s : Store) :
    s.Keeps (hostArguments args s).2 ∧
      (hostArguments args s).1.Within (hostArguments args s).2.heap.extent := by
  refine ⟨hostArguments_induction args (.refl s) (fun t text h => h.trans (.addObject (by simp)))
    fun t hsize h => h.trans (.addObject ?_), ?_⟩
  · rintro element elements pins ⟨⟩ v hv
    obtain ⟨i, hi, rfl⟩ := List.mem_map.1 (List.mem_toArray.1 hv)
    have hi := List.mem_range.1 hi
    show s.heap.objects.size + i < t.heap.objects.size
    omega
  · simp [hostArguments_eq, Value.Within, Heap.extent]

/-- Starting a sound program keeps the heap valid, and a crash is allowed. -/
theorem runEntry_ordered {result : Except Failure Int32}
    (hprogram : ∀ m ∈ s.program.methods, m.Sound s.program) (hs : s.store.heap.Valid)
    (h : s.runEntry args = some (result, s')) :
    s'.program = s.program ∧ s'.store.heap.Valid ∧
      ∀ c, result = .error (.crash c) → c.Allowed s.program := by
  have hcode : ∀ {name : String} {r : CallResult} {c : Crash},
      (∀ c, r = .error c → c.Allowed s.program) → exitCodeOf name r = .error (.crash c) →
      c.Allowed s.program := by
    intro name r c hr hc
    unfold exitCodeOf at hc
    cases r with
    | error c' =>
      cases hc
      exact hr c rfl
    | ok value =>
      match value, hc with
      | some (.pointer _), hc | some (.object _), hc | some (.float _), hc | some .null, hc =>
        cases hc
        exact .of_sound rfl
  unfold runEntry at h
  split at h
  · cases h
    exact ⟨rfl, hs, by simp⟩
  rename_i entry hentry
  have hmem := Module.mem_of_entryMethod? hentry
  split at h
  · rename_i hparameters
    obtain ⟨⟨r, t⟩, ht, h⟩ := Option.map_eq_some_iff.1 h
    cases h
    obtain ⟨hp, hv, hc⟩ := invoke_ordered hprogram hmem hs (by rw [hparameters]; rfl)
      (by simp) ht
    exact ⟨hp, hv, fun c => hcode hc⟩
  · rename_i only hparameters
    split at h
    · obtain ⟨⟨r, t⟩, ht, h⟩ := Option.map_eq_some_iff.1 h
      cases h
      obtain ⟨hk, hwithin⟩ := keeps_hostArguments args s.store
      obtain ⟨hp, hv, hc⟩ := invoke_ordered (s := { s with store := (hostArguments args s.store).2 })
        hprogram hmem (hk.valid hs) (by rw [hparameters]; rfl)
          (List.forall_mem_singleton.2 hwithin) ht
      exact ⟨hp, hv, fun c => hcode hc⟩
    · cases h
      exact ⟨rfl, hs, by simp⟩
  · cases h
    exact ⟨rfl, hs, by simp⟩

theorem Reached.valid (h : Reached program s) (hprogram : ∀ m ∈ program.methods, m.Sound program) :
    s.program = program ∧ s.store.heap.Valid := by
  induction h with
  | fresh =>
    refine ⟨rfl, ?_⟩
    intro id element elements pins _ ho
    simp at ho
  | again _ hrun ih =>
    obtain ⟨rfl, hs⟩ := ih
    obtain ⟨hp, hv, -⟩ := runEntry_ordered hprogram hs hrun
    exact ⟨hp, hv⟩

end Session

/-- No run of a compiled program ends with a malformed fault, unless a function that owes a value runs
into its end. -/
theorem TranslationUnit.runEntry_wellFormed {unit : TranslationUnit} {name : String} {m : Module}
    {units : List FunctionUnit} {s s' : Session} {args : List String} {c : Crash}
    (hcompile : unit.compile name = .ok m)
    (hunits : unit.functions.mapM FunctionUnit.ofDefinition = .ok units)
    (hdistinct : (units.map (·.name)).Nodup)
    (hstarter : EntryPoint.starterName ∉ units.map (·.name))
    (hs : Session.Reached m s) (hrun : s.runEntry args = some (.error (.crash c), s'))
    (hmalformed : c.fault.isMalformed = true) :
    ∃ u ∈ units, u.returnType.isVoid = false ∧ u.name ≠ EntryPoint.functionName ∧
      c.method = u.name ∧ c.fault = .invalidProgram (.fellOff u.name) := by
  obtain ⟨fs, p, hbuilt, rfl, hfs⟩ := built_of_compile hcompile
  obtain rfl : fs.map (·.unit) = units := by
    rw [hfs] at hunits
    exact Except.ok.inj hunits
  have hu : Unambiguous fs := by
    refine ⟨by rwa [List.map_map] at hdistinct, ?_, ?_⟩
    · rintro f hf heq
      exact hstarter (by simpa using ⟨f, hf, heq⟩)
    · intro f hf
      obtain ⟨d, -, hd⟩ := Except.mem_of_mapM hfs (List.mem_map_of_mem hf)
      exact FunctionUnit.isVoid_of_ofDefinition hd
  have hprogram : ∀ m ∈ p.module.methods, m.Sound p.module := fun m hm => hbuilt.sound hu hm
  obtain ⟨hp, hvalid⟩ := hs.valid hprogram
  rw [← hp] at hprogram
  obtain ⟨method, hmem, howes, hmethod, hfault⟩ :=
    (Session.runEntry_ordered hprogram hvalid hrun).2.2 c rfl hmalformed
  rw [hp] at hmem
  rcases hbuilt.mem_methods hmem with ⟨f, hf, rfl⟩ | ⟨f, hf, he, hstarts⟩
  · rw [f.method_name] at hmethod hfault
    refine ⟨f.unit, List.mem_map_of_mem hf, ?_, f.method_name ▸ howes.notEntry, hmethod, hfault⟩
    have hresults := f.results_method
    rw [Method.results, if_neg howes.returnType,
      (FunctionUnit.signature_eq_ok f.declared).2.1] at hresults
    cases hv : f.unit.returnType.isVoid with
    | false => rfl
    | true =>
      rw [CType.width_of_isVoid hv] at hresults
      cases hresults
  · obtain ⟨-, rfl⟩ := EntryPoint.starter_eq_ok hstarts
    exact absurd rfl howes.notStarter

/-- A program whose function `g` owes a value and runs into its end. -/
def TranslationUnit.forgetful : TranslationUnit where
  functions := [
    { specifiers := [.type .int]
      declarator := .mk [] (.function (.identifier "g") none) .unknown
      declarations := []
      body := .compound .unknown []
      span := .unknown },
    { specifiers := [.type .int]
      declarator := .mk [] (.function (.identifier "main") none) .unknown
      declarations := []
      body := .compound .unknown
        [.ret .unknown (some (.call .unknown (.identifier .unknown "g") []))]
      span := .unknown }]

/-- The run of that program ends with the fault that is excepted. -/
theorem TranslationUnit.runEntry_forgetful : ∃ m units,
    forgetful.compile "forgetful" = .ok m ∧
    forgetful.functions.mapM FunctionUnit.ofDefinition = .ok units ∧
    ∃ u ∈ units, u.returnType.isVoid = false ∧ u.name ≠ EntryPoint.functionName ∧
      "g" = u.name ∧ Fault.invalidProgram (.fellOff "g") = .invalidProgram (.fellOff u.name) := by
  let m := (forgetful.compile "forgetful").toOption.getD default
  let units := (forgetful.functions.mapM FunctionUnit.ofDefinition).toOption.getD []
  have hcompile : forgetful.compile "forgetful" = .ok m := by cbv
  have hunits : forgetful.functions.mapM FunctionUnit.ofDefinition = .ok units := by cbv
  have hnames : units.map (·.name) = ["g", "main"] := by cbv
  have hcrash : (({ program := m } : Session).runEntry []).map (·.1) =
      some (.error (.crash ⟨"g", 0, .invalidProgram (.fellOff "g")⟩)) := by cbv
  obtain ⟨⟨result, s⟩, hrun, rfl⟩ := Option.map_eq_some_iff.1 hcrash
  exact ⟨m, units, hcompile, hunits, runEntry_wellFormed hcompile hunits
    (by rw [hnames]; decide) (by rw [hnames]; decide) .fresh hrun rfl⟩

end ManagedC
