import ManagedC.Machine.Session
import ManagedC.Proofs.Emit.Calls
import ManagedC.Proofs.Emit.Parameters
import ManagedC.Proofs.Emit.StarterCode
import ManagedC.Proofs.Program.CallTargets

/-!
# The table of functions, the methods and the entry point agree

A name is known in two places, the table of functions and the methods of the module, and one
function is known in a third, the entry point. They are updated one after the other, and a starter
is in the module but not in the table. Main statement: they agree in every program that definitions
lead to, whatever fails to compile and whatever is defined twice (`Program.Reached.consistent`).
-/

namespace ManagedC

/-! ## The last method of a name -/

namespace Module

/-- The method with number `id` is the last one with a name. -/
def IsLatest (m : Module) (name : String) (id : Nat) : Prop :=
  ∃ method, m.methods[id]? = some method ∧ method.name = name ∧
    ∀ (k : Nat) (later : Method), id < k → m.methods[k]? = some later → later.name ≠ name

variable {m : Module} {name : String} {id : Nat}

theorem findMethod?_addMethod (m : Module) (method : Method) (name : String) :
    (m.addMethod method).findMethod? name =
      if method.name = name then some method else m.findMethod? name := by
  unfold findMethod? addMethod
  rw [Array.toList_push, List.reverse_append, List.reverse_singleton, List.singleton_append,
    List.find?_cons]
  by_cases h : method.name = name
  · simp [h]
  · rw [if_neg h, beq_eq_false_iff_ne.2 h]

theorem isLatest_addMethod {method : Method} (h : method.name = name) :
    (m.addMethod method).IsLatest name m.methods.size := by
  refine ⟨method, Array.getElem?_push_size, h, ?_⟩
  intro k later hk hlater
  have hlt := (Array.getElem?_eq_some_iff.1 hlater).1
  have hsize : (m.addMethod method).methods.size = m.methods.size + 1 := Array.size_push method
  omega

/-- A method of another name changes nothing for a name. -/
theorem IsLatest.addMethod {method : Method} (h : m.IsLatest name id) (hname : method.name ≠ name) :
    (m.addMethod method).IsLatest name id := by
  obtain ⟨found, hfound, hfoundName, hlast⟩ := h
  refine ⟨found, getElem?_push_of_some hfound, hfoundName, ?_⟩
  intro k later hk hlater
  rcases Nat.lt_trichotomy k m.methods.size with hlt | rfl | hgt
  · have hold : m.methods[k]? = some later := by
      rw [← hlater]
      unfold Module.addMethod
      rw [Array.getElem?_push_lt hlt, Array.getElem?_eq_getElem hlt]
    exact hlast k later hk hold
  · obtain rfl : method = later := Option.some.inj (Array.getElem?_push_size.symm.trans hlater)
    exact hname
  · have hlt := (Array.getElem?_eq_some_iff.1 hlater).1
    have hsize : (m.addMethod method).methods.size = m.methods.size + 1 := Array.size_push method
    omega

end Module

namespace FunctionTable

theorem find?_add (t : FunctionTable) (e : FunctionEntry) (name : String) :
    (t.add e).find? name = if e.signature.name = name then some e else t.find? name := by
  unfold find? add
  rw [List.reverse_append, List.reverse_singleton, List.singleton_append, List.find?_cons]
  by_cases h : e.signature.name = name
  · simp [h]
  · rw [if_neg h, beq_eq_false_iff_ne.2 h]

end FunctionTable

namespace Program

/-! ## What agreement is -/

/-- A name means the same method in the table of functions and in the module. -/
structure Names (p : Program) (name : String) : Prop where
  /-- If there is no function with the name, then there is no method. -/
  absent : p.functions.find? name = none → p.module.findMethod? name = none
  /-- The method of the last function with the name is the last method with the name, which is the
  one that is found. -/
  latest : ∀ e, p.functions.find? name = some e → p.module.IsLatest name e.method ∧
    p.module.findMethod? name = p.module.methods[e.method]?

/-- The entry function is started by the method with number `id`: by itself if it takes no
parameters, and by a starter that the host can call and that calls nothing else otherwise. -/
structure Starts (p : Program) (e : FunctionEntry) (id : Nat) : Prop where
  /-- The entry function takes no parameters. -/
  direct : ∀ main, p.module.methods[e.method]? = some main → main.parameters = [] → id = e.method
  /-- The entry function takes parameters. -/
  bridged : ∀ main, p.module.methods[e.method]? = some main → main.parameters ≠ [] →
    ∃ starter, p.module.methods[id]? = some starter ∧
      starter.parameters.map (·.type) = [.array .string] ∧
      ∀ target, Instruction.call target ∈ starter.body.instructions ↔ target = main.ref

/-- The table of functions, the methods and the entry point agree. -/
structure Consistent (p : Program) : Prop where
  /-- An entry of the table numbers a method, and they have the same reference and name. -/
  designates : ∀ e ∈ p.functions.entries, ∃ method, p.module.methods[e.method]? = some method ∧
    method.ref = e.signature.method ∧ method.name = e.signature.name
  /-- Every name but that of the starter means the same method in both. -/
  names : ∀ name, name ≠ EntryPoint.starterName → p.Names name
  /-- There is at most one entry function. -/
  once : p.functions.entries.countP (·.signature.name == EntryPoint.functionName) ≤ 1
  /-- There is an entry point only if there is an entry function. -/
  entered : p.module.entryPoint.isSome = true →
    ∃ e ∈ p.functions.entries, e.signature.name = EntryPoint.functionName
  /-- If there is an entry function, then the entry point is what starts it. -/
  starts : ∀ e ∈ p.functions.entries, e.signature.name = EntryPoint.functionName →
    ∃ id, p.module.entryPoint = some id ∧ id < p.module.methods.size ∧ p.Starts e id

/-- The program after more definitions, going on after those that fail. -/
def after (p : Program) (ds : List FunctionDefinition) : Program :=
  ds.foldl (fun q d => (d.compile q).2) p

variable {name : String} {fs : List CompiledFunction} {f : CompiledFunction} {p q : Program}

/-! ## What one function changes -/

theorem Names.addFunction {signature : FunctionSignature} {method : Method} {name : String}
    (h : p.Names name) (hname : method.name = signature.name) :
    (p.addFunction signature method).Names name := by
  by_cases hown : signature.name = name
  · have hfind : (p.addFunction signature method).functions.find? name =
        some ⟨signature, p.module.methods.size⟩ := by
      unfold Program.addFunction
      rw [FunctionTable.find?_add, if_pos hown]
    refine ⟨?_, ?_⟩
    · intro hnone
      rw [hfind] at hnone
      cases hnone
    · intro e he
      obtain rfl := Option.some.inj (hfind.symm.trans he)
      refine ⟨Module.isLatest_addMethod (hname.trans hown), ?_⟩
      unfold Program.addFunction
      rw [Module.findMethod?_addMethod, if_pos (hname.trans hown)]
      exact Array.getElem?_push_size.symm
  · have hother : method.name ≠ name := by
      rw [hname]
      exact hown
    have hfind : (p.addFunction signature method).functions.find? name =
        p.functions.find? name := by
      unfold Program.addFunction
      rw [FunctionTable.find?_add, if_neg hown]
    have hmethod : (p.addFunction signature method).module.findMethod? name =
        p.module.findMethod? name := by
      unfold Program.addFunction
      rw [Module.findMethod?_addMethod, if_neg hother]
    refine ⟨?_, ?_⟩
    · intro hnone
      rw [hmethod]
      exact h.absent (hfind.symm.trans hnone)
    · intro e he
      obtain ⟨hlatest, hfound⟩ := h.latest e (hfind.symm.trans he)
      refine ⟨hlatest.addMethod hother, ?_⟩
      obtain ⟨found, hget, -⟩ := hlatest
      rw [hmethod, hfound, hget]
      exact (getElem?_push_of_some hget).symm

/-- A method that is not in the table changes nothing for other names. -/
theorem Names.addMethod {method : Method} {name : String} (h : p.Names name)
    (hname : method.name ≠ name) : (p.addMethod method).Names name := by
  have hmethod : (p.addMethod method).module.findMethod? name = p.module.findMethod? name := by
    unfold Program.addMethod
    rw [Module.findMethod?_addMethod, if_neg hname]
  refine ⟨?_, ?_⟩
  · intro hnone
    rw [hmethod]
    exact h.absent hnone
  · intro e he
    obtain ⟨hlatest, hfound⟩ := h.latest e he
    refine ⟨hlatest.addMethod hname, ?_⟩
    obtain ⟨found, hget, -⟩ := hlatest
    rw [hmethod, hfound, hget]
    exact (getElem?_push_of_some hget).symm

/-- What was in a program stays where it is. -/
structure Grows (p q : Program) : Prop where
  /-- The entries of the table. -/
  entries : ∀ e ∈ p.functions.entries, e ∈ q.functions.entries
  methods : ∀ (i : Nat) (method : Method), p.module.methods[i]? = some method →
    q.module.methods[i]? = some method
  /-- The entry point, if it is set. -/
  entryPoint : ∀ id, p.module.entryPoint = some id → q.module.entryPoint = some id

theorem Grows.refl (p : Program) : p.Grows p :=
  ⟨fun _ h => h, fun _ _ h => h, fun _ h => h⟩

theorem Grows.trans {r : Program} (h : p.Grows q) (h' : q.Grows r) : p.Grows r :=
  ⟨fun e he => h'.entries e (h.entries e he), fun i m hm => h'.methods i m (h.methods i m hm),
    fun id hid => h'.entryPoint id (h.entryPoint id hid)⟩

namespace Consistent

/-- An entry point that is set designates a method. -/
theorem entryPoint_eq_none (h : p.Consistent) (hfree : p.module.entryMethod? = none) :
    p.module.entryPoint = none := by
  cases hset : p.module.entryPoint with
  | none => rfl
  | some first =>
    obtain ⟨e, he, hmain⟩ := h.entered (by rw [hset, Option.isSome_some])
    obtain ⟨id, hid, hlt, -⟩ := h.starts e he hmain
    unfold Module.entryMethod? at hfree
    rw [hid, Option.bind_some, Array.getElem?_eq_getElem hlt] at hfree
    cases hfree

/-- There is no entry function as long as the entry point is free. -/
theorem name_ne (h : p.Consistent) (hfree : p.module.entryMethod? = none) :
    ∀ e ∈ p.functions.entries, e.signature.name ≠ EntryPoint.functionName := by
  intro e he hmain
  obtain ⟨id, hid, -⟩ := h.starts e he hmain
  rw [h.entryPoint_eq_none hfree] at hid
  cases hid

theorem adds_grows (h : p.Consistent) (hadds : p.Adds f q) : p.Grows q := by
  have hfree : p.module.entryMethod? = none →
      ∀ id, p.module.entryPoint = some id → False := by
    intro hnone id hid
    rw [h.entryPoint_eq_none hnone] at hid
    cases hid
  cases hadds with
  | function _ =>
    exact ⟨fun e he => List.mem_append_left _ he, fun i m hm => getElem?_push_of_some hm,
      fun id hid => hid⟩
  | entry _ hnone _ =>
    exact ⟨fun e he => List.mem_append_left _ he, fun i m hm => getElem?_push_of_some hm,
      fun id hid => (hfree hnone id hid).elim⟩
  | started _ hnone _ _ =>
    exact ⟨fun e he => List.mem_append_left _ he,
      fun i m hm => getElem?_push_of_some (getElem?_push_of_some hm),
      fun id hid => (hfree hnone id hid).elim⟩

/-- The new entry numbers the new method. -/
theorem adds_designates (h : p.Consistent) (hadds : p.Adds f q) :
    ∀ e ∈ q.functions.entries, ∃ method, q.module.methods[e.method]? = some method ∧
      method.ref = e.signature.method ∧ method.name = e.signature.name := by
  have hgrows := h.adds_grows hadds
  have hname : f.method.name = f.signature.name := f.method_name.trans f.signature_name.symm
  have hnew : q.functions.entries = p.functions.entries ++ [⟨f.signature, p.module.methods.size⟩] ∧
      q.module.methods[p.module.methods.size]? = some f.method := by
    cases hadds with
    | function _ => exact ⟨rfl, Array.getElem?_push_size⟩
    | entry _ _ _ => exact ⟨rfl, Array.getElem?_push_size⟩
    | started _ _ _ _ => exact ⟨rfl, getElem?_push_of_some Array.getElem?_push_size⟩
  intro e he
  rw [hnew.1] at he
  rcases List.mem_append.1 he with hold | he
  · obtain ⟨method, hmethod, href⟩ := h.designates e hold
    exact ⟨method, hgrows.methods _ _ hmethod, href⟩
  · obtain rfl := List.mem_singleton.1 he
    exact ⟨f.method, hnew.2, f.ref_method, hname⟩

/-- The starter has a name of its own. -/
theorem adds_names (h : p.Consistent) (hadds : p.Adds f q) :
    ∀ name, name ≠ EntryPoint.starterName → q.Names name := by
  have hname : f.method.name = f.signature.name := f.method_name.trans f.signature_name.symm
  intro name hne
  have hown : (p.addFunction f.signature f.method).Names name := (h.names name hne).addFunction hname
  cases hadds with
  | function _ => exact hown
  | entry _ _ _ => exact ⟨hown.absent, hown.latest⟩
  | started _ _ _ hs =>
    obtain ⟨-, rfl⟩ := EntryPoint.starter_eq_ok hs
    have hstarter : (EntryPoint.bridge f.signature.method).name ≠ name := hne.symm
    have hboth := hown.addMethod hstarter
    exact ⟨hboth.absent, hboth.latest⟩

/-- An entry function is added only where there is none. -/
theorem adds_once (h : p.Consistent) (hadds : p.Adds f q) :
    q.functions.entries.countP (·.signature.name == EntryPoint.functionName) ≤ 1 := by
  have hentries : q.functions.entries =
      p.functions.entries ++ [⟨f.signature, p.module.methods.size⟩] := by
    cases hadds <;> rfl
  rw [hentries, List.countP_append, List.countP_singleton]
  have honce := h.once
  have hnone : p.module.entryMethod? = none →
      p.functions.entries.countP (·.signature.name == EntryPoint.functionName) = 0 := by
    intro hfree
    rw [List.countP_eq_zero]
    intro e he hmain
    exact h.name_ne hfree e he (beq_iff_eq.1 hmain)
  cases hadds with
  | function hu =>
    have hother : (f.signature.name == EntryPoint.functionName) = false := by
      rw [f.signature_name]
      exact hu
    rw [if_neg (by simp [hother])]
    exact honce
  | entry _ hfree _ =>
    rw [hnone hfree]
    split <;> omega
  | started _ hfree _ _ =>
    rw [hnone hfree]
    split <;> omega

theorem adds_entered (h : p.Consistent) (hadds : p.Adds f q)
    (hset : q.module.entryPoint.isSome = true) :
    ∃ e ∈ q.functions.entries, e.signature.name = EntryPoint.functionName := by
  have hgrows := h.adds_grows hadds
  have hown : f.unit.isEntry = true → f.signature.name = EntryPoint.functionName := by
    intro hu
    rw [f.signature_name]
    exact beq_iff_eq.1 hu
  cases hadds with
  | function _ =>
    obtain ⟨e, he, hmain⟩ := h.entered hset
    exact ⟨e, hgrows.entries e he, hmain⟩
  | entry hu _ _ => exact ⟨_, List.mem_append_right _ List.mem_cons_self, hown hu⟩
  | started hu _ _ _ => exact ⟨_, List.mem_append_right _ List.mem_cons_self, hown hu⟩

end Consistent

/-! ## How the entry function is started -/

/-- What starts an entry function stays what it is. -/
theorem Starts.grows {e : FunctionEntry} {id : Nat} {main : Method} (h : p.Starts e id)
    (hmain : p.module.methods[e.method]? = some main) (hgrows : p.Grows q) : q.Starts e id := by
  have heq : ∀ m, q.module.methods[e.method]? = some m → m = main := by
    intro m hm
    exact Option.some.inj (hm.symm.trans (hgrows.methods _ _ hmain))
  refine ⟨?_, ?_⟩
  · intro m hm
    obtain rfl := heq m hm
    exact h.direct m hmain
  · intro m hm hparameters
    obtain rfl := heq m hm
    obtain ⟨starter, hstarter, htakes, hcalls⟩ := h.bridged m hmain hparameters
    exact ⟨starter, hgrows.methods _ _ hstarter, htakes, hcalls⟩

/-- A method has the parameters that its function is declared with. -/
theorem parameters_eq_nil_iff (f : CompiledFunction) :
    f.method.parameters = [] ↔ f.unit.parameterList = [] := by
  obtain ⟨parameters, hlength, hextends⟩ := f.code.extends_of_code
  rw [hextends.parameters, ← List.length_eq_zero_iff, ← List.length_eq_zero_iff, ← hlength]

namespace Consistent

theorem adds_starts {d : FunctionDefinition} (h : p.Consistent)
    (hd : FunctionUnit.ofDefinition d = .ok f.unit) (hadds : p.Adds f q) :
    ∀ e ∈ q.functions.entries, e.signature.name = EntryPoint.functionName →
      ∃ id, q.module.entryPoint = some id ∧ id < q.module.methods.size ∧ q.Starts e id := by
  have hgrows := h.adds_grows hadds
  -- Only the last entry is that of an entry function if the entry point was free.
  have hlast : p.module.entryMethod? = none → ∀ e : FunctionEntry,
      e ∈ p.functions.entries ++ [⟨f.signature, p.module.methods.size⟩] →
      e.signature.name = EntryPoint.functionName → e = ⟨f.signature, p.module.methods.size⟩ := by
    intro hfree e he hmain
    rcases List.mem_append.1 he with he | he
    · exact absurd hmain (h.name_ne hfree e he)
    · exact List.mem_singleton.1 he
  intro e he hmain
  cases hadds with
  | function hu =>
    rcases List.mem_append.1 he with he | he
    · obtain ⟨id, hid, hlt, hstarts⟩ := h.starts e he hmain
      obtain ⟨method, hmethod, -⟩ := h.designates e he
      refine ⟨id, hid, ?_, hstarts.grows hmethod hgrows⟩
      exact Nat.lt_of_lt_of_eq (Nat.lt_succ_of_lt hlt) (Array.size_push f.method).symm
    · obtain rfl := List.mem_singleton.1 he
      rw [f.signature_name] at hmain
      rw [FunctionUnit.isEntry, hmain, beq_self_eq_true] at hu
      cases hu
  | entry _ hfree hneeds =>
    obtain rfl := hlast hfree e he hmain
    have hnone : f.method.parameters = [] := by
      rw [parameters_eq_nil_iff]
      by_cases hnil : f.unit.parameterList = []
      · exact hnil
      · exact absurd ((FunctionUnit.needsStarter_iff hd hneeds).2 hnil) (by simp)
    refine ⟨_, rfl, ?_, ⟨fun _ _ _ => rfl, ?_⟩⟩
    · exact Nat.lt_of_lt_of_eq (Nat.lt_succ_self _) (Array.size_push f.method).symm
    · intro m hm hparameters
      obtain rfl : f.method = m := Option.some.inj (Array.getElem?_push_size.symm.trans hm)
      exact absurd hnone hparameters
  | @started starter _ hfree hneeds hstarter =>
    obtain rfl := hlast hfree e he hmain
    obtain ⟨-, rfl⟩ := EntryPoint.starter_eq_ok hstarter
    have hsome : f.method.parameters ≠ [] := by
      rw [Ne, parameters_eq_nil_iff]
      exact (FunctionUnit.needsStarter_iff hd hneeds).1 rfl
    have hsize : (p.module.methods.push f.method).size = p.module.methods.size + 1 :=
      Array.size_push f.method
    have hown : ∀ m, ((p.module.methods.push f.method).push
        (EntryPoint.bridge f.signature.method))[p.module.methods.size]? = some m → f.method = m := by
      intro m hm
      exact Option.some.inj ((getElem?_push_of_some Array.getElem?_push_size).symm.trans hm)
    refine ⟨_, rfl, ?_, ⟨?_, ?_⟩⟩
    · show _ < ((p.module.methods.push f.method).push _).size
      rw [Array.size_push, hsize]
      exact Nat.lt_succ_self _
    · intro m hm hparameters
      obtain rfl := hown m hm
      exact absurd hparameters hsome
    · intro m hm _
      obtain rfl := hown m hm
      refine ⟨EntryPoint.bridge f.signature.method, ?_, rfl, ?_⟩
      · show ((p.module.methods.push f.method).push _)[p.module.methods.size + 1]? = _
        rw [← hsize]
        exact Array.getElem?_push_size
      · intro target
        rw [f.ref_method]
        simp [EntryPoint.bridge]

/-- A function that is added keeps the agreement. -/
theorem adds {d : FunctionDefinition} (h : p.Consistent)
    (hd : FunctionUnit.ofDefinition d = .ok f.unit) (hadds : p.Adds f q) : q.Consistent :=
  ⟨h.adds_designates hadds, h.adds_names hadds, h.adds_once hadds, h.adds_entered hadds,
    h.adds_starts hd hadds⟩

theorem empty (name : String) : (Program.empty name).Consistent := by
  refine ⟨?_, ?_, Nat.zero_le 1, ?_, ?_⟩
  · intro e he
    cases he
  · intro other _
    refine ⟨fun _ => rfl, ?_⟩
    intro e he
    cases he
  · intro hset
    cases hset
  · intro e he
    cases he

end Consistent

/-! ## Any number of definitions -/

/-- A definition keeps the agreement, compiled or not, and what was there stays. -/
theorem Consistent.compile (h : p.Consistent) (hp : Built name fs p) (d : FunctionDefinition) :
    (d.compile p).2.Consistent ∧ p.Grows (d.compile p).2 ∧
      ∃ gs, Built name gs (d.compile p).2 := by
  rcases hd : d.compile p with ⟨e | a, q⟩
  · obtain rfl := FunctionDefinition.eq_of_fails hp hd
    exact ⟨h, .refl q, fs, hp⟩
  · have hyields : Yields d.compile p a q := hd
    unfold FunctionDefinition.compile at hyields
    simp only [Yields.bind_iff, Build.yields_ofExcept] at hyields
    obtain ⟨u, _, ⟨hu, rfl⟩, hyields⟩ := hyields
    obtain ⟨f, rfl, hf, hadds⟩ := FunctionUnit.adds_compile hyields
    exact ⟨h.adds hu hadds, h.adds_grows hadds, fs ++ [f], hadds.built hp hf⟩

theorem Consistent.after (h : p.Consistent) (hp : Built name fs p) (ds : List FunctionDefinition) :
    (p.after ds).Consistent ∧ p.Grows (p.after ds) := by
  induction ds generalizing p fs with
  | nil => exact ⟨h, .refl p⟩
  | cons d ds ih =>
    obtain ⟨hd, hgrows, gs, hq⟩ := h.compile hp d
    obtain ⟨hafter, hgrows'⟩ := ih hd hq
    exact ⟨hafter, hgrows.trans hgrows'⟩

/-- The entry function is the only one of its name. -/
theorem Consistent.find?_main (h : p.Consistent) {e : FunctionEntry}
    (he : e ∈ p.functions.entries) (hmain : e.signature.name = EntryPoint.functionName) :
    p.functions.find? EntryPoint.functionName = some e := by
  have hsome : (p.functions.find? EntryPoint.functionName).isSome = true := by
    unfold FunctionTable.find?
    rw [List.find?_isSome]
    exact ⟨e, List.mem_reverse.2 he, beq_iff_eq.2 hmain⟩
  obtain ⟨found, hfound⟩ := Option.isSome_iff_exists.1 hsome
  have hfoundMain : (found.signature.name == EntryPoint.functionName) = true := by
    simpa using List.find?_some hfound
  have honce := h.once
  rw [List.countP_eq_length_filter] at honce
  have hin : ∀ x ∈ p.functions.entries, (x.signature.name == EntryPoint.functionName) = true →
      x ∈ p.functions.entries.filter (·.signature.name == EntryPoint.functionName) :=
    fun x hx hname => List.mem_filter.2 ⟨hx, hname⟩
  have hone := hin e he (beq_iff_eq.2 hmain)
  have hother := hin found (List.mem_reverse.1 (List.mem_of_find?_eq_some hfound)) hfoundMain
  obtain ⟨only, honly⟩ := List.length_eq_one_iff.1
    (Nat.le_antisymm honce (List.length_pos_of_mem hone))
  rw [honly] at hone hother
  rw [hfound, List.mem_singleton.1 hone, List.mem_singleton.1 hother]

theorem Consistent.names_main (h : p.Consistent) : p.Names EntryPoint.functionName :=
  h.names _ (by decide)

/-- The host can start a program with an entry function. -/
theorem Consistent.runEntry_ne (h : p.Consistent) {e : FunctionEntry}
    (he : e ∈ p.functions.entries) (hmain : e.signature.name = EntryPoint.functionName)
    {s s' : Session} {args : List String} {result : Except Failure Int32}
    (hs : s.program = p.module) (hrun : s.runEntry args = some (result, s')) :
    result ≠ .error .noEntryPoint ∧ ∀ method, result ≠ .error (.unsupportedEntry method) := by
  have hcode : ∀ (method : String) (r : CallResult),
      Session.exitCodeOf method r ≠ .error .noEntryPoint ∧
        ∀ other, Session.exitCodeOf method r ≠ .error (.unsupportedEntry other) := by
    intro method r
    rcases r with c | (_ | v)
    · exact ⟨by rintro ⟨⟩, by rintro other ⟨⟩⟩
    · exact ⟨by rintro ⟨⟩, by rintro other ⟨⟩⟩
    · cases v <;> exact ⟨by rintro ⟨⟩, by rintro other ⟨⟩⟩
  obtain ⟨id, hid, hlt, hstarts⟩ := h.starts e he hmain
  obtain ⟨main, hgetMain, -⟩ := h.designates e he
  have hentry : s.program.entryMethod? = p.module.methods[id]? := by
    rw [hs]
    unfold Module.entryMethod?
    rw [hid, Option.bind_some]
  unfold Session.runEntry at hrun
  rw [hentry] at hrun
  by_cases hnone : main.parameters = []
  · obtain rfl := hstarts.direct main hgetMain hnone
    rw [hgetMain] at hrun
    dsimp only at hrun
    rw [hnone] at hrun
    obtain ⟨⟨r, t⟩, -, hrun⟩ := Option.map_eq_some_iff.1 hrun
    cases hrun
    exact hcode _ _
  · obtain ⟨starter, hstarter, htakes, -⟩ := hstarts.bridged main hgetMain hnone
    obtain ⟨only, hparameters, htype⟩ := List.map_eq_singleton_iff.1 htakes
    rw [hstarter] at hrun
    dsimp only at hrun
    rw [hparameters] at hrun
    dsimp only at hrun
    rw [if_pos htype] at hrun
    obtain ⟨⟨r, t⟩, -, hrun⟩ := Option.map_eq_some_iff.1 hrun
    cases hrun
    exact hcode _ _

theorem Reached.agrees (h : p.Reached name) : p.Consistent := by
  induction h with
  | empty => exact .empty name
  | next d hp ih =>
    obtain ⟨fs, hbuilt⟩ := hp.built
    exact (ih.compile hbuilt d).1

/-- In every program that definitions lead to, the table of functions, the methods and the entry point
agree. What starts the entry function stays what it is, and a call of the entry function runs it,
however many definitions follow; and the host can start the program if there is an entry function. -/
theorem Reached.consistent (h : p.Reached name) :
    p.Consistent ∧
    (∀ e ∈ p.functions.entries, e.signature.name = EntryPoint.functionName →
      ∀ ds : List FunctionDefinition,
        (∀ id, p.module.entryPoint = some id → (p.after ds).module.entryPoint = some id ∧
          (p.after ds).Starts e id ∧
          (p.after ds).module.methods[id]? = p.module.methods[id]?) ∧
        (p.after ds).module.methods[e.method]? = p.module.methods[e.method]? ∧
        (p.after ds).module.IsLatest EntryPoint.functionName e.method ∧
        (p.after ds).module.findMethod? EntryPoint.functionName = p.module.methods[e.method]?) ∧
    ((∃ e ∈ p.functions.entries, e.signature.name = EntryPoint.functionName) →
      ∀ (s s' : Session) (args : List String) (result : Except Failure Int32),
        s.program = p.module → s.runEntry args = some (result, s') →
        result ≠ .error .noEntryPoint ∧ ∀ method, result ≠ .error (.unsupportedEntry method)) := by
  have hp := h.agrees
  obtain ⟨fs, hbuilt⟩ := h.built
  refine ⟨hp, ?_, ?_⟩
  · intro e he hmain ds
    obtain ⟨hq, hgrows⟩ := hp.after hbuilt ds
    obtain ⟨method, hmethod, -⟩ := hp.designates e he
    have hstays := hgrows.methods _ _ hmethod
    obtain ⟨hlatest, hfound⟩ :=
      hq.names_main.latest e (hq.find?_main (hgrows.entries e he) hmain)
    refine ⟨?_, by rw [hstays, hmethod], hlatest, by rw [hfound, hstays, hmethod]⟩
    intro id hid
    obtain ⟨id', hid', hlt, hstarts⟩ := hp.starts e he hmain
    obtain rfl : id' = id := Option.some.inj (hid'.symm.trans hid)
    refine ⟨hgrows.entryPoint id' hid, hstarts.grows hmethod hgrows, ?_⟩
    rw [Array.getElem?_eq_getElem hlt]
    exact hgrows.methods _ _ (Array.getElem?_eq_getElem hlt)
  · rintro ⟨e, he, hmain⟩ s s' args result hs hrun
    exact hp.runEntry_ne he hmain hs hrun

/-- A program with an entry function that takes arguments. Its entry point is the starter, a second
method, and a call of the entry function runs it whatever is defined later. -/
theorem consistent_started : ∃ (p : Program) (e : FunctionEntry),
    p = (Program.empty "started").after [.started] ∧ p.functions.entries = [e] ∧ e.method = 0 ∧
    p.module.entryPoint = some 1 ∧ p.Starts e 1 ∧
    ∀ ds, (p.after ds).module.IsLatest EntryPoint.functionName 0 := by
  obtain ⟨p, hp⟩ : ∃ p, p = (Program.empty "started").after [.started] := ⟨_, rfl⟩
  have hreached : p.Reached "started" := by
    rw [hp]
    exact .next .started .empty
  have hentries : p.functions.entries.map (fun e => (e.signature.name, e.method)) =
      [(EntryPoint.functionName, 0)] := by
    rw [hp]
    decide +kernel
  have hentry : p.module.entryPoint = some 1 := by
    rw [hp]
    decide +kernel
  obtain ⟨e, he, hdata⟩ := List.map_eq_singleton_iff.1 hentries
  obtain ⟨hmain, hmethod⟩ := Prod.mk.inj hdata
  have hmem : e ∈ p.functions.entries := by
    rw [he]
    exact List.mem_cons_self
  obtain ⟨-, hlater, -⟩ := Reached.consistent hreached
  refine ⟨p, e, hp, he, hmethod, hentry, ((hlater e hmem hmain []).1 1 hentry).2.1, ?_⟩
  intro ds
  rw [← hmethod]
  exact (hlater e hmem hmain ds).2.2.1

end Program

end ManagedC
