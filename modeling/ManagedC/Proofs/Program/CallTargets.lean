import ManagedC.Proofs.Emit.Calls
import ManagedC.Proofs.Emit.StarterCode
import ManagedC.Proofs.Program.Registration
import ManagedC.Proofs.Run.Step
import ManagedC.Syntax.Construct

/-!
# Which methods calls run

The name of a called function is looked up twice: in the table of functions while the caller is
compiled, where `Program.callee?` says which method is meant, and among the methods of the finished
module when the call runs. In between the module has grown. Main statement: a call runs the last
method of its name, which is the one it was checked against unless another of that name was added
after it (`TranslationUnit.call_runs`).
-/

namespace ManagedC

/-! ## Names in a program under compilation -/

/-- The number of the method that a name refers to while a function is compiled: that of the function
itself, which comes next, or that of the last function with the name. -/
def Program.callee? (p : Program) (caller name : String) : Option Nat :=
  if caller == name then some p.module.methods.size
  else (p.functions.find? name).map (·.method)

/-- When the definition was compiled that the method with number `i` comes from, a name referred to
the method with number `id`. -/
def TranslationUnit.RefersTo (unit : TranslationUnit) (moduleName : String) (i : Nat)
    (name : String) (id : Nat) : Prop :=
  ∃ (before : List FunctionDefinition) (d : FunctionDefinition) (after : List FunctionDefinition)
    (p q : Program) (u : FunctionUnit), unit.functions = before ++ d :: after ∧
      Yields (before.forM FunctionDefinition.compile) (.empty moduleName) () p ∧
      Yields d.compile p () q ∧ FunctionUnit.ofDefinition d = .ok u ∧
      p.module.methods.size ≤ i ∧ i < q.module.methods.size ∧ p.callee? u.name name = some id

/-- What is in a list stays where it is when something is added at the end. -/
theorem getElem?_push_of_some {α : Type} {xs : Array α} {i : Nat} {x y : α} (h : xs[i]? = some x) :
    (xs.push y)[i]? = some x := by
  have hlt := (Array.getElem?_eq_some_iff.1 h).1
  rw [Array.getElem?_push_lt hlt, ← h, Array.getElem?_eq_getElem hlt]

namespace Program

variable {name : String} {fs : List CompiledFunction} {p q : Program} {f : CompiledFunction}

/-- An entry of the table designates the method of its function. -/
theorem Built.method_of_entry (h : Built name fs p) {e : FunctionEntry}
    (he : e ∈ p.functions.entries) :
    ∃ f ∈ fs, f.signature = e.signature ∧ p.module.methods[e.method]? = some f.method := by
  have hnew : ∀ {fs : List CompiledFunction} {p : Program} {f : CompiledFunction},
      (e ∈ p.functions.entries → ∃ f ∈ fs, f.signature = e.signature ∧
        p.module.methods[e.method]? = some f.method) →
      e ∈ p.functions.entries ++ [⟨f.signature, p.module.methods.size⟩] →
      ∃ g ∈ fs ++ [f], g.signature = e.signature ∧
        (p.module.methods.push f.method)[e.method]? = some g.method := by
    intro fs p f ih he
    rcases List.mem_append.1 he with he | he
    · obtain ⟨g, hg, hsignature, hmethod⟩ := ih he
      exact ⟨g, List.mem_append_left _ hg, hsignature, getElem?_push_of_some hmethod⟩
    · obtain rfl := List.mem_singleton.1 he
      exact ⟨f, List.mem_append_right _ List.mem_cons_self, rfl, Array.getElem?_push_size⟩
  induction h with
  | empty => cases he
  | function _ _ _ ih | entry _ _ _ _ _ ih => exact hnew ih he
  | started _ _ _ _ _ _ ih =>
    obtain ⟨g, hg, hsignature, hmethod⟩ := hnew ih he
    exact ⟨g, hg, hsignature, getElem?_push_of_some hmethod⟩

namespace Registers

/-- Methods stay where they are. -/
theorem getElem?_methods (h : p.Registers f q) {i : Nat} {m : Method}
    (hm : p.module.methods[i]? = some m) : q.module.methods[i]? = some m := by
  have hlt := (Array.getElem?_eq_some_iff.1 hm).1
  have hmethods := h.methods
  split at hmethods
  · obtain ⟨starter, -, hq⟩ := hmethods
    rw [hq, Array.getElem?_append_left hlt, hm]
  · rw [hmethods, Array.getElem?_append_left hlt, hm]

theorem getElem?_method (h : p.Registers f q) :
    q.module.methods[p.module.methods.size]? = some f.method := by
  have hmethods := h.methods
  split at hmethods
  · obtain ⟨starter, -, hq⟩ := hmethods
    rw [hq, Array.getElem?_append_right (Nat.le_refl _), Nat.sub_self]
    rfl
  · rw [hmethods, Array.getElem?_append_right (Nat.le_refl _), Nat.sub_self]
    rfl

/-- A new method is that of the function, or its starter. -/
theorem eq_or_starter (h : p.Registers f q) {i : Nat} {m : Method}
    (hi : p.module.methods.size ≤ i) (hm : q.module.methods[i]? = some m) :
    m = f.method ∨ f.unit.isEntry = true ∧ EntryPoint.starter f.signature.method = .ok m := by
  have hmethods := h.methods
  split at hmethods
  · rename_i hbridged
    obtain ⟨starter, hstarter, hq⟩ := hmethods
    rw [hq, Array.getElem?_append_right hi] at hm
    rcases List.mem_cons.1 (List.mem_toArray.1 (Array.mem_of_getElem? hm)) with hm | hm
    · exact .inl hm
    · obtain rfl := List.mem_singleton.1 hm
      exact .inr ⟨(Bool.and_eq_true_iff.1 hbridged).1, hstarter⟩
  · rw [hmethods, Array.getElem?_append_right hi] at hm
    exact .inl (List.mem_singleton.1 (List.mem_toArray.1 (Array.mem_of_getElem? hm)))

end Registers

/-- A call in a method that a definition adds names the method that the name referred to. -/
theorem Built.callee (hp : Built name fs p) (h : p.Registers f q) {i : Nat} {m : Method}
    (hi : p.module.methods.size ≤ i) (hm : q.module.methods[i]? = some m) {target : MethodRef}
    (htarget : Instruction.call target ∈ m.body.instructions) :
    ∃ id checked, p.callee? f.unit.name target.name = some id ∧
      q.module.methods[id]? = some checked ∧ checked.ref = target := by
  have hself : f.signature.method = target →
      ∃ id checked, p.callee? f.unit.name target.name = some id ∧
        q.module.methods[id]? = some checked ∧ checked.ref = target := by
    rintro rfl
    refine ⟨p.module.methods.size, f.method, ?_, h.getElem?_method, f.ref_method⟩
    unfold callee?
    rw [f.ref_name, if_pos (beq_self_eq_true _)]
  rcases h.eq_or_starter hi hm with rfl | ⟨-, hstarter⟩
  · obtain ⟨called, callee, hfind, rfl⟩ := f.code.callsKnown htarget
    unfold Scope.findFunction? at hfind
    by_cases hown : f.signature.name = called
    · rw [if_pos (beq_iff_eq.2 hown : ((Scope.begin _ _).signature.name == called) = true)] at hfind
      cases hfind
      exact hself rfl
    · rw [if_neg (by simpa [Scope.begin] using hown)] at hfind
      obtain ⟨e, he, rfl⟩ := Option.map_eq_some_iff.1 hfind
      have hentry : p.functions.find? called = some e := by
        rw [← h.known]
        exact he
      have hcalled : e.signature.name = called := by
        simpa using List.find?_some hentry
      obtain ⟨g, -, hsignature, hmethod⟩ :=
        hp.method_of_entry (List.mem_reverse.1 (List.mem_of_find?_eq_some hentry))
      have hname : e.signature.method.name = called := by
        rw [← hcalled, ← hsignature, g.ref_name, g.signature_name]
      refine ⟨e.method, g.method, ?_, h.getElem?_methods hmethod, ?_⟩
      · unfold callee?
        rw [hname, if_neg (by simpa [f.signature_name] using hown), hentry]
        rfl
      · rw [g.ref_method, hsignature]
  · obtain ⟨-, rfl⟩ := EntryPoint.starter_eq_ok hstarter
    have htarget : target = f.signature.method := by
      simpa [EntryPoint.bridge] using htarget
    exact hself htarget.symm

end Program

/-! ## Names in a finished module -/

/-- A look-up by name finds the last method with the name. -/
theorem Module.findMethod?_eq_some {m : Module} {name : String} {found : Method}
    (h : m.findMethod? name = some found) :
    ∃ j : Nat, m.methods[j]? = some found ∧ found.name = name ∧
      ∀ (k : Nat) (later : Method), j < k → m.methods[k]? = some later → later.name ≠ name := by
  obtain ⟨hname, after, before, hmethods, hafter⟩ := List.find?_eq_some_iff_append.1 h
  have hlist : m.methods.toList = before.reverse ++ found :: after.reverse := by
    rw [← List.reverse_reverse m.methods.toList, hmethods]
    simp
  refine ⟨before.length, ?_, by simpa using hname, ?_⟩
  · rw [← Array.getElem?_toList, hlist, List.getElem?_append_right (by simp)]
    simp
  · intro k later hk hlater
    rw [← Array.getElem?_toList, hlist, List.getElem?_append_right (by simp; omega),
      List.getElem?_cons] at hlater
    rw [List.length_reverse, if_neg (by omega)] at hlater
    have hmem := List.mem_reverse.1 (List.mem_of_getElem? hlater)
    simpa using hafter later hmem

/-- A crash begins no call. -/
theorem Run.callers_raise {store : Store} {steps : Nat} {c : Crash} {a : Activation}
    {callers : List Activation} {r : Run} (h : raise store steps c a callers = .more r) :
    r.callers.length ≤ callers.length := by
  cases hcovering : a.covering with
  | cons region rest =>
    rw [raise_of_covering_cons hcovering] at h
    cases h
    exact Nat.le_refl _
  | nil =>
    rw [raise_of_covering_nil hcovering] at h
    cases callers with
    | nil => cases h
    | cons caller callers =>
      have hle := callers_raise h
      rw [List.length_cons]
      omega
termination_by callers.length

/-- A call that a run begins is one of the method that is found under the name. -/
theorem Run.method_of_call {m : Module} {limits : Limits} {r r' : Run} {target : MethodRef}
    (hi : r.current.instruction? = some (.call target)) (hstep : r.step m limits = .more r')
    (hcallers : r.callers.length < r'.callers.length) :
    m.findMethod? target.name = some r'.current.method := by
  have hsteps : StepsTo m limits r (r.step m limits) := stepsTo_step r
  rw [hstep] at hsteps
  by_cases hlimit : r.steps < limits.steps
  · rcases hsteps.of_call hlimit hi with ⟨c, hraise⟩ | ⟨method, callee, hfind, henter, hmore⟩
    · have := callers_raise hraise.symm
      omega
    · cases hmore
      obtain ⟨-, -, regions, -, rfl⟩ := Activation.enter_eq_ok.1 henter
      exact hfind
  · unfold step at hstep
    rw [if_pos (Nat.le_of_not_lt hlimit)] at hstep
    have := callers_raise hstep
    omega

/-! ## A unit as a whole -/

namespace TranslationUnit

variable {name : String} {fs : List CompiledFunction} {p q : Program} {i : Nat}

/-- A method stays where it is while more definitions are compiled. -/
theorem getElem?_methods {m : Method} : ∀ {ds : List FunctionDefinition}
    {fs : List CompiledFunction} {p : Program}, Program.Built name fs p →
    Yields (ds.forM FunctionDefinition.compile) p () q → p.module.methods[i]? = some m →
    q.module.methods[i]? = some m
  | [], fs, p, _, h, hm => by
    obtain ⟨-, rfl⟩ := Yields.pure_iff.1 h
    exact hm
  | d :: ds, fs, p, hp, h, hm => by
    unfold List.forM at h
    obtain ⟨⟨⟩, r, hd, h⟩ := Yields.bind_iff.1 h
    obtain ⟨f, -, hregisters, hr⟩ := FunctionDefinition.registers_compile hp hd
    exact getElem?_methods hr h (hregisters.getElem?_methods hm)

/-- A method that was added was added by one of the definitions. -/
theorem exists_definition : ∀ {ds : List FunctionDefinition} {p : Program},
    Yields (ds.forM FunctionDefinition.compile) p () q → p.module.methods.size ≤ i →
    i < q.module.methods.size →
    ∃ before d after r s, ds = before ++ d :: after ∧
      Yields (before.forM FunctionDefinition.compile) p () r ∧ Yields d.compile r () s ∧
      Yields (after.forM FunctionDefinition.compile) s () q ∧ r.module.methods.size ≤ i ∧
      i < s.module.methods.size
  | [], p, h, hle, hlt => by
    obtain ⟨-, rfl⟩ := Yields.pure_iff.1 h
    omega
  | d :: ds, p, h, hle, hlt => by
    unfold List.forM at h
    obtain ⟨⟨⟩, s, hd, h⟩ := Yields.bind_iff.1 h
    by_cases hi : i < s.module.methods.size
    · exact ⟨[], d, ds, p, s, rfl, rfl, hd, h, hle, hi⟩
    · obtain ⟨before, d', after, r, s', hds, hbefore, hd', hafter, hle', hlt'⟩ :=
        exists_definition h (Nat.le_of_not_lt hi) hlt
      refine ⟨d :: before, d', after, r, s', by rw [hds]; rfl, ?_, hd', hafter, hle', hlt'⟩
      unfold List.forM
      exact Yields.bind_iff.2 ⟨(), s, hd, hbefore⟩

/-- A call names a method that its name referred to when it was compiled. It runs the last method with
the name, which is that one unless another was added after it. -/
theorem call_runs {unit : TranslationUnit} {m : Module} {method : Method} {pc : Nat}
    {target : MethodRef} (hcompile : unit.compile name = .ok m)
    (hmethod : m.methods[i]? = some method)
    (hcall : method.body.instructions[pc]? = some (.call target)) :
    ∃ (id : Nat) (checked : Method) (j : Nat) (selected : Method),
      unit.RefersTo name i target.name id ∧
      m.methods[id]? = some checked ∧ checked.ref = target ∧
      m.methods[j]? = some selected ∧ selected.name = target.name ∧ id ≤ j ∧
      (∀ (k : Nat) (later : Method), j < k → m.methods[k]? = some later → later.name ≠ target.name) ∧
      ((∀ (k : Nat) (later : Method), id < k → m.methods[k]? = some later → later.name ≠ target.name) →
        selected = checked) ∧
      ∀ (limits : Limits) (r r' : Run), r.current.method = method → r.current.pc = pc →
        r.step m limits = .more r' → r.callers.length < r'.callers.length →
        r'.current.method = selected := by
  unfold compile at hcompile
  rcases hall : unit.functions.forM FunctionDefinition.compile (.empty name) with ⟨e | ⟨⟩, q⟩
  · rw [hall] at hcompile
    cases hcompile
  obtain rfl : q.module = m := by
    rw [hall] at hcompile
    cases hcompile
    rfl
  have hlt := (Array.getElem?_eq_some_iff.1 hmethod).1
  obtain ⟨before, d, after, p, s, hunit, hbefore, hd, hafter, hle, hi⟩ :=
    exists_definition hall (Nat.zero_le i) hlt
  obtain ⟨fs, hp, -⟩ := built_forM .empty hbefore
  obtain ⟨f, hf, hregisters, hs⟩ := FunctionDefinition.registers_compile hp hd
  have hs' : s.module.methods[i]? = some method := by
    have hget := Array.getElem?_eq_getElem hi
    rw [hget, ← getElem?_methods hs hafter hget, hmethod]
  obtain ⟨id, checked, hcallee, hchecked, href⟩ :=
    hp.callee hregisters hle hs' (Array.mem_of_getElem? hcall)
  have hchecked := getElem?_methods hs hafter hchecked
  have hname : checked.name = target.name := by
    rw [← href]
    rfl
  -- The method that is found under the name is the last one, and there is one.
  obtain ⟨selected, hselected⟩ : ∃ selected, q.module.findMethod? target.name = some selected := by
    refine Option.isSome_iff_exists.1 (List.find?_isSome.2 ⟨checked, ?_, by simpa using hname⟩)
    simpa using Array.mem_of_getElem? hchecked
  obtain ⟨j, hj, hjname, hlast⟩ := Module.findMethod?_eq_some hselected
  have hidj : id ≤ j := by
    rcases Nat.lt_or_ge j id with hlt | hle
    · exact absurd hname (hlast id checked hlt hchecked)
    · exact hle
  refine ⟨id, checked, j, selected, ⟨before, d, after, p, s, f.unit, hunit, hbefore, hd, hf, hle, hi,
    hcallee⟩, hchecked, href, hj, hjname, hidj, hlast, ?_, ?_⟩
  · intro hnone
    rcases Nat.lt_or_eq_of_le hidj with hlt | rfl
    · exact absurd hjname (hnone j selected hlt hj)
    · rw [hj] at hchecked
      exact Option.some.inj hchecked
  · intro limits r r' hr hpc hstep hcallers
    have hinstruction : r.current.instruction? = some (.call target) := by
      unfold Activation.instruction?
      rw [hr, hpc, hcall]
    have hfound := Run.method_of_call hinstruction hstep hcallers
    rw [hselected] at hfound
    exact (Option.some.inj hfound).symm

/-- A function that is called, and then defined again with another result type. -/
def redefined : TranslationUnit where
  functions := [
    Construct.intFunction "f" none [Construct.ret (some (Construct.int 1))],
    Construct.intFunction "g" none [Construct.ret (some (Construct.call "f" []))],
    Construct.function [Construct.charSpecifier] (Construct.functionDeclarator "f" none)
      (Construct.block [Construct.ret (some (Construct.int 2))]),
    Construct.intFunction "main" none [Construct.ret (some (Construct.call "g" []))]]

/-- The methods of that program, and where its calls begin. -/
theorem compile_redefined :
    ((redefined.compile "redefined").toOption.map fun m => m.methods.toList.map fun method =>
      (method.ref, method.body.instructions[0]?)) =
      some [(⟨"f", .int32, []⟩, some (.constInt32 1)),
        (⟨"g", .int32, []⟩, some (.call ⟨"f", .int32, []⟩)),
        (⟨"f", .uint8, []⟩, some (.constInt32 2)),
        (⟨"main", .int32, []⟩, some (.call ⟨"g", .int32, []⟩))] := by
  decide +kernel

/-- That program as a module with four methods. -/
theorem exists_redefined : ∃ (m : Module) (f g f' main : Method),
    redefined.compile "redefined" = .ok m ∧ m.methods.toList = [f, g, f', main] ∧
      f.ref = ⟨"f", .int32, []⟩ ∧ f'.ref = ⟨"f", .uint8, []⟩ ∧ g.ref = ⟨"g", .int32, []⟩ ∧
      main.ref = ⟨"main", .int32, []⟩ ∧
      g.body.instructions[0]? = some (.call ⟨"f", .int32, []⟩) ∧
      main.body.instructions[0]? = some (.call ⟨"g", .int32, []⟩) := by
  obtain ⟨m, hm, hmethods⟩ := Option.map_eq_some_iff.1 compile_redefined
  have hcompile : redefined.compile "redefined" = .ok m := Except.of_toOption hm
  obtain ⟨f, _, hlist, hf, hrest⟩ := List.map_eq_cons_iff.1 hmethods
  obtain ⟨g, _, rfl, hg, hrest⟩ := List.map_eq_cons_iff.1 hrest
  obtain ⟨f', _, rfl, hf', hrest⟩ := List.map_eq_cons_iff.1 hrest
  obtain ⟨main, _, rfl, hmain, hrest⟩ := List.map_eq_cons_iff.1 hrest
  obtain rfl := List.map_eq_nil_iff.1 hrest
  obtain ⟨hf, -⟩ := Prod.mk.inj hf
  obtain ⟨hg, hgcall⟩ := Prod.mk.inj hg
  obtain ⟨hf', -⟩ := Prod.mk.inj hf'
  obtain ⟨hmain, hmaincall⟩ := Prod.mk.inj hmain
  exact ⟨m, f, g, f', main, hcompile, hlist, hf, hf', hg, hmain, hgcall, hmaincall⟩

/-- The call of a function that is not defined again runs the method it was checked against. -/
theorem call_runs_last : ∃ (m : Module) (g main : Method),
    redefined.compile "redefined" = .ok m ∧ m.methods[1]? = some g ∧ m.methods[3]? = some main ∧
      main.body.instructions[0]? = some (.call g.ref) ∧
      ∀ (limits : Limits) (r r' : Run), r.current.method = main → r.current.pc = 0 →
        r.step m limits = .more r' → r.callers.length < r'.callers.length →
        r'.current.method = g := by
  obtain ⟨m, f, g, f', main, hcompile, hlist, hf, hf', hg, hmain, -, hcall⟩ := exists_redefined
  have hget : ∀ k : Nat, m.methods[k]? = [f, g, f', main][k]? := by
    intro k
    rw [← hlist, Array.getElem?_toList]
  obtain ⟨id, checked, j, selected, -, -, -, hj, hname, -, hlast, -, hruns⟩ :=
    call_runs hcompile (hget 3) hcall
  have hselected : selected = g := by
    rw [hget] at hj
    match j, hj with
    | 1, hj => exact (Option.some.inj hj).symm
    | 0, hj =>
      exact absurd (congrArg (·.name) hg) (hlast 1 g (by decide) (hget 1))
    | 2, hj =>
      obtain rfl := Option.some.inj hj
      exact absurd ((congrArg (·.name) hf').symm.trans hname) (by decide)
    | 3, hj =>
      obtain rfl := Option.some.inj hj
      exact absurd ((congrArg (·.name) hmain).symm.trans hname) (by decide)
    | j + 4, hj => cases hj
  subst hselected
  exact ⟨m, selected, main, hcompile, hget 1, hget 3, hg ▸ hcall, hruns⟩

/-- The call of a function that is defined again does not run the method it was checked against, and
what it runs goes by another reference. -/
theorem call_redefined : ∃ (m : Module) (g checked selected : Method) (target : MethodRef),
    redefined.compile "redefined" = .ok m ∧ m.methods[1]? = some g ∧
      g.body.instructions[0]? = some (.call target) ∧
      redefined.RefersTo "redefined" 1 target.name 0 ∧ m.methods[0]? = some checked ∧
      m.findMethod? target.name = some selected ∧ selected ≠ checked ∧ selected.ref ≠ target := by
  obtain ⟨m, f, g, f', main, hcompile, hlist, hf, hf', hg, hmain, hcall, -⟩ := exists_redefined
  have hget : ∀ k : Nat, m.methods[k]? = [f, g, f', main][k]? := by
    intro k
    rw [← hlist, Array.getElem?_toList]
  have hrefers : redefined.RefersTo "redefined" 1 "f" 0 := by
    let before := redefined.functions.take 1
    let p := (before.forM FunctionDefinition.compile (Program.empty "redefined")).2
    let d := Construct.intFunction "g" none [Construct.ret (some (Construct.call "f" []))]
    have hu : (FunctionUnit.ofDefinition d).toOption.map (·.name) = some "g" := by decide +kernel
    rcases hd : FunctionUnit.ofDefinition d with e | u
    · rw [hd] at hu
      cases hu
    · rw [hd] at hu
      obtain hu : u.name = "g" := Option.some.inj hu
      refine ⟨before, d, redefined.functions.drop 2, p, (d.compile p).2, u, rfl,
        .of_toOption (by decide +kernel), .of_toOption (by decide +kernel), hd, by decide +kernel,
        by decide +kernel, ?_⟩
      rw [hu]
      decide +kernel
  have hfind : m.findMethod? "f" = some f' := by
    have hname : f'.name = "f" := congrArg (·.name) hf'
    have hmain : main.name = "main" := congrArg (·.name) hmain
    unfold Module.findMethod?
    rw [hlist]
    simp [hmain, hname]
  refine ⟨m, g, f, f', _, hcompile, hget 1, hcall, hrefers, hget 0, hfind, ?_, ?_⟩
  · rintro rfl
    rw [hf] at hf'
    cases hf'
  · rw [hf']
    decide

end TranslationUnit

end ManagedC
