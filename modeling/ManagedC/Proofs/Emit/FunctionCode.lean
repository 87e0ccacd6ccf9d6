import ManagedC.Compile.Program
import ManagedC.Proofs.Emit.BodyCode

/-!
# What functions and programs are compiled to

`FunctionUnit.Code` says which method a function becomes: its parameters, the code of its body and
the instructions after it. `Program.Adds` says what a function adds to a program, and
`Program.Built` which programs functions can add up to. Main statement: a module that is compiled
from a translation unit is built in this way (`TranslationUnit.built_of_compile`).
-/

namespace ManagedC

open Yields Emit

namespace Scope

/-- The scope with one more parameter. -/
def pushParameter (s : Scope) (p : Parameter) (target : TargetType) : Scope :=
  { s with
    assembler := s.assembler.pushParameter ⟨p.name, target⟩
    parameters := match p.name with
      | some name =>
        (name, ⟨.parameter (UInt16.ofNat s.assembler.method.parameters.length), p.type⟩) ::
          s.parameters
      | none => s.parameters }

/-- Parameters are bound one after the other, no name twice. -/
inductive BindsParameters : Scope → List Parameter → Scope → Prop where
  | nil {s : Scope} : BindsParameters s [] s
  | cons {s t : Scope} {p : Parameter} {ps : List Parameter} {target : TargetType} :
    p.type.target = .ok target → (∀ name, p.name = some name → s.parameters.lookup name = none) →
    BindsParameters (s.pushParameter p target) ps t → BindsParameters s (p :: ps) t

end Scope

namespace FunctionUnit

/-- The parameters, as far as any are known. -/
def parameterList (u : FunctionUnit) : List Parameter := (u.parameters.map (·.parameters)).getD []

/-- A function becomes a method. -/
inductive Code (u : FunctionUnit) (signature : FunctionSignature) (functions : FunctionTable) :
    Method → Prop where
  /-- The parameters, the body and the instructions after it. -/
  | mk {s t : Scope} :
    Scope.BindsParameters (.begin signature functions) u.parameterList s →
    Body.Code s [u.body] t → (t.append [] u.epilogue).assembler.unboundTarget? = none →
    Code u signature functions (t.append [] u.epilogue).assembler.method

end FunctionUnit

namespace Emit

variable {s t : Scope}

theorem yields_bindParameter {p : Parameter} {location : Location} {slot : UInt16}
    (h : Yields (bindParameter p.name p.type location) s slot t) :
    ∃ target, p.type.target = .ok target ∧
      (∀ name, p.name = some name → s.parameters.lookup name = none) ∧
      t = s.pushParameter p target := by
  unfold bindParameter at h
  rw [bind_iff] at h
  obtain ⟨target, s, hr, h⟩ := h
  obtain ⟨ht, rfl⟩ := yields_represent hr
  rw [bind_iff] at h
  obtain ⟨index, u, ha, h⟩ := h
  obtain ⟨assembler, hs, rfl⟩ := yields_assemble ha
  obtain ⟨rfl, rfl⟩ := Assembly.yields_addParameter hs
  obtain ⟨type, name⟩ := p
  cases name with
  | none =>
    obtain ⟨rfl, rfl⟩ := pure_iff.1 h
    exact ⟨target, ht, by simp, rfl⟩
  | some name =>
    simp only [bind_iff (x := get), get_iff, bind_iff (x := set _), set_iff] at h
    obtain ⟨_, _, ⟨rfl, rfl⟩, _, _, rfl, h⟩ := h
    simp only at h
    split at h
    · simp only [bind_iff, not_throw, false_and, exists_false] at h
    · rename_i hnew
      obtain ⟨rfl, rfl⟩ := pure_iff.1 h
      refine ⟨target, ht, ?_, rfl⟩
      intro name' hname
      cases hname
      cases hl : s.parameters.lookup name with
      | none => rfl
      | some v =>
        rw [hl] at hnew
        exact absurd rfl hnew

theorem yields_bindParameters {location : Location} : ∀ {ps : List Parameter} {s t : Scope}
    {u : Unit}, Yields (ps.forM fun p => discard <| bindParameter p.name p.type location) s u t →
      s.BindsParameters ps t
  | [], s, t, u, h => by
    obtain ⟨-, rfl⟩ := pure_iff.1 h
    exact .nil
  | p :: ps, s, t, u, h => by
    unfold List.forM at h
    rw [bind_iff] at h
    obtain ⟨_, v, hp, h⟩ := h
    obtain ⟨slot, hp, -⟩ := map_iff.1 hp
    obtain ⟨target, ht, hname, rfl⟩ := yields_bindParameter hp
    exact .cons ht hname (yields_bindParameters h)

theorem yields_instrs : ∀ {code : List Instruction} {s t : Scope} {u : Unit},
    Yields (code.forM instr) s u t → t = s.append [] code
  | [], s, t, u, h => by
    obtain ⟨-, rfl⟩ := pure_iff.1 h
    exact (Scope.append_nil _).symm
  | i :: code, s, t, u, h => by
    unfold List.forM at h
    rw [bind_iff] at h
    obtain ⟨_, v, hi, h⟩ := h
    rw [yields_instrs h, yields_instr.1 hi, Scope.append_append]
    rfl

end Emit

namespace FunctionUnit

/-- The method of a function is what is emitted for its parameters, its body and the instructions after
it. -/
theorem method_eq_ok {u : FunctionUnit} {signature : FunctionSignature} {functions : FunctionTable}
    {m : Method} (h : u.method signature functions = .ok m) : ∃ bound written : Scope,
      Yields (u.parameterList.forM fun p => discard <| bindParameter p.name p.type u.location)
        (.begin signature functions) () bound ∧
      Yields u.body.compile bound () written ∧
      (written.append [] u.epilogue).assembler.unboundTarget? = none ∧
      m = (written.append [] u.epilogue).assembler.method := by
  unfold method at h
  rcases he : u.emit (.begin signature functions) with ⟨r, t⟩
  rw [he] at h
  cases r with
  | error e => cases h
  | ok a =>
    have hemit : Yields u.emit (.begin signature functions) a t := he
    unfold emit at hemit
    simp only [bind_iff] at hemit
    obtain ⟨_, bound, hp, _, written, hb, hi⟩ := hemit
    obtain rfl := yields_instrs hi
    have hfinish : (written.append [] u.epilogue).assembler.finish = .ok m :=
      Except.mapError_eq_ok.1 h
    unfold Assembler.finish at hfinish
    split at hfinish
    · cases hfinish
    · split at hfinish
      · cases hfinish
      · rename_i hu
        cases hfinish
        exact ⟨bound, written, hp, hb, hu, rfl⟩

/-- The method of a function is its code. -/
theorem code_method {u : FunctionUnit} {signature : FunctionSignature} {functions : FunctionTable}
    {m : Method} (h : u.method signature functions = .ok m) : u.Code signature functions m := by
  obtain ⟨bound, written, hp, hb, hu, rfl⟩ := method_eq_ok h
  exact .mk (yields_bindParameters hp) (u.body.code_compile hb) hu

end FunctionUnit

/-- A function and what it was compiled to. -/
structure CompiledFunction where
  /-- The function. -/
  unit : FunctionUnit
  /-- The type of the result on the target machine. -/
  returnType : TargetType
  /-- What calls to the function are checked against. -/
  signature : FunctionSignature
  /-- The functions compiled before it. -/
  functions : FunctionTable
  /-- The method. -/
  method : Method
  /-- The type of the result is the one that the function is declared with. -/
  returns : unit.targetReturn = .ok returnType
  /-- The signature is the one that the function is declared with. -/
  declared : unit.signature returnType = .ok signature
  /-- The method is what the function becomes. -/
  code : unit.Code signature functions method

namespace Program

/-- What a compiled function adds to a program. -/
inductive Adds (p : Program) (f : CompiledFunction) : Program → Prop where
  | function : f.unit.isEntry = false → Adds p f (p.addFunction f.signature f.method)
  /-- An entry function is added that the host calls. -/
  | entry : f.unit.isEntry = true → p.module.entryMethod? = none →
    EntryPoint.needsStarter f.unit.parameters = .ok false →
    Adds p f
      { p.addFunction f.signature f.method with
        module := { (p.addFunction f.signature f.method).module with
          entryPoint := some p.module.methods.size } }
  /-- An entry function is added, and the starter that calls it. -/
  | started {starter : Method} : f.unit.isEntry = true → p.module.entryMethod? = none →
    EntryPoint.needsStarter f.unit.parameters = .ok true →
    EntryPoint.starter f.signature.method = .ok starter →
    Adds p f
      { p.addFunction f.signature f.method with
        module := { ((p.addFunction f.signature f.method).addMethod starter).module with
          entryPoint := some (p.module.methods.size + 1) } }

/-- The programs that compiled functions add up to, in order. -/
inductive Built (name : String) : List CompiledFunction → Program → Prop where
  | empty : Built name [] (.empty name)
  | function {fs : List CompiledFunction} {p : Program} {f : CompiledFunction} :
    Built name fs p → f.functions = p.functions → f.unit.isEntry = false →
    Built name (fs ++ [f]) (p.addFunction f.signature f.method)
  /-- An entry function is added that the host calls. -/
  | entry {fs : List CompiledFunction} {p : Program} {f : CompiledFunction} :
    Built name fs p → f.functions = p.functions → f.unit.isEntry = true →
    p.module.entryMethod? = none → EntryPoint.needsStarter f.unit.parameters = .ok false →
    Built name (fs ++ [f])
      { p.addFunction f.signature f.method with
        module := { (p.addFunction f.signature f.method).module with
          entryPoint := some p.module.methods.size } }
  /-- An entry function is added, and the starter that calls it. -/
  | started {fs : List CompiledFunction} {p : Program} {f : CompiledFunction} {starter : Method} :
    Built name fs p → f.functions = p.functions → f.unit.isEntry = true →
    p.module.entryMethod? = none → EntryPoint.needsStarter f.unit.parameters = .ok true →
    EntryPoint.starter f.signature.method = .ok starter →
    Built name (fs ++ [f])
      { p.addFunction f.signature f.method with
        module := { ((p.addFunction f.signature f.method).addMethod starter).module with
          entryPoint := some (p.module.methods.size + 1) } }

theorem Adds.built {name : String} {fs : List CompiledFunction} {p q : Program}
    {f : CompiledFunction} (h : p.Adds f q) (hp : Built name fs p) (hf : f.functions = p.functions) :
    Built name (fs ++ [f]) q := by
  cases h with
  | function he => exact .function hp hf he
  | entry he hfree hn => exact .entry hp hf he hfree hn
  | started he hfree hn hs => exact .started hp hf he hfree hn hs

end Program

namespace Build

variable {α : Type} {p q : Program}

theorem yields_ofExcept {r : Except CompileError α} {a : α} :
    Yields (ofExcept r) p a q ↔ r = .ok a ∧ q = p := by
  constructor
  · intro h
    cases h
    exact ⟨rfl, rfl⟩
  · rintro ⟨rfl, rfl⟩
    rfl

end Build

/-- The entry point is set to what is wanted, and nothing else changes. -/
theorem Program.setEntryPoint_eq_ok {p q : Program} {id : Nat} {function : String}
    {location : Location} (h : p.setEntryPoint id function location = .ok q) :
    q = { p with module := { p.module with entryPoint := some id } } := by
  unfold Program.setEntryPoint Module.setEntryPoint at h
  cases hm : p.module.methods[id]? with
  | none =>
    rw [hm] at h
    cases h
  | some m =>
    rw [hm] at h
    cases he : p.module.entryMethod? with
    | some e =>
      rw [he] at h
      cases h
    | none =>
      rw [he] at h
      cases h
      rfl

namespace FunctionUnit

/-- Whether an entry function needs a starter has been found out, and the entry point is free. -/
theorem checkParameters_eq_ok {u : FunctionUnit} {p : Program} {needsStarter : Bool}
    (h : u.checkParameters p = .ok needsStarter) :
    (u.isEntry = false ∧ needsStarter = false) ∨
      (u.isEntry = true ∧ p.module.entryMethod? = none ∧
        EntryPoint.needsStarter u.parameters = .ok needsStarter) := by
  unfold checkParameters at h
  cases hu : u.isEntry with
  | false =>
    simp only [hu, Bool.false_eq_true, if_false] at h
    split at h
    · cases h
    · cases h
      exact .inl ⟨rfl, rfl⟩
  | true =>
    simp only [hu, if_true] at h
    refine .inr ⟨rfl, ?_⟩
    obtain ⟨b, hn, h⟩ := Except.bind_eq_ok.1 h
    obtain ⟨_, he, h⟩ := Except.bind_eq_ok.1 h
    obtain rfl := Except.pure_eq_ok.1 h
    unfold Program.ensureEntryFree Program.entryName? at he
    cases hm : p.module.entryMethod? with
    | some m =>
      rw [hm] at he
      cases he
    | none => exact ⟨rfl, Except.mapError_eq_ok.1 hn⟩

/-- A function that compiles is added to the program it was compiled in, with its method. -/
theorem adds_method {u : FunctionUnit} {p q : Program} {a : Unit} (h : Yields u.compile p a q) :
    ∃ f : CompiledFunction, f.unit = u ∧ f.functions = p.functions ∧ p.Adds f q ∧
      u.method f.signature f.functions = .ok f.method := by
  unfold compile at h
  simp only [bind_iff, Build.yields_ofExcept, get_iff] at h
  obtain ⟨returnType, _, ⟨hr, rfl⟩, _, _, ⟨rfl, rfl⟩, needsStarter, _, ⟨hn, rfl⟩, signature, _,
    ⟨hs, rfl⟩, _, _, ⟨rfl, rfl⟩, method, _, ⟨hm, rfl⟩, starter, _, ⟨hstarter, rfl⟩, h⟩ := h
  rename_i p
  let f : CompiledFunction :=
    ⟨u, returnType, signature, p.functions, method, hr, hs, code_method hm⟩
  refine ⟨f, rfl, rfl, ?_, hm⟩
  simp only [modify_iff] at h
  obtain ⟨_, _, rfl, h⟩ := h
  rcases checkParameters_eq_ok hn with ⟨hu, rfl⟩ | ⟨hu, hfree, hneeds⟩
  · simp only [hu, Bool.false_eq_true, if_false] at h
    obtain ⟨-, rfl⟩ := pure_iff.1 h
    exact .function (f := f) hu
  · rw [if_pos hu] at h
    cases needsStarter with
    | false =>
      obtain rfl : starter = none := (Except.pure_eq_ok.1 hstarter).symm
      simp only [bind_iff, get_iff, Build.yields_ofExcept, set_iff] at h
      obtain ⟨_, _, ⟨rfl, rfl⟩, _, _, ⟨rfl, rfl⟩, r, _, ⟨hset, rfl⟩, rfl⟩ := h
      rw [Program.setEntryPoint_eq_ok hset]
      have hsize : (p.addFunction signature method).module.methods.size - 1 =
          p.module.methods.size := by
        simp [Program.addFunction, Module.addMethod]
      rw [hsize]
      exact .entry (f := f) hu hfree hneeds
    | true =>
      obtain ⟨m, hm, rfl⟩ := Except.map_eq_ok.1 hstarter
      simp only [bind_iff, get_iff, Build.yields_ofExcept, set_iff, modify_iff] at h
      obtain ⟨_, _, rfl, _, _, ⟨rfl, rfl⟩, _, _, ⟨rfl, rfl⟩, r, _, ⟨hset, rfl⟩, rfl⟩ := h
      rw [Program.setEntryPoint_eq_ok hset]
      have hsize : ((p.addFunction signature method).addMethod m).module.methods.size - 1 =
          p.module.methods.size + 1 := by
        simp [Program.addFunction, Program.addMethod, Module.addMethod]
      rw [hsize]
      exact .started (f := f) hu hfree hneeds hm

/-- A function that compiles is added to the program it was compiled in. -/
theorem adds_compile {u : FunctionUnit} {p q : Program} {a : Unit} (h : Yields u.compile p a q) :
    ∃ f : CompiledFunction, f.unit = u ∧ f.functions = p.functions ∧ p.Adds f q := by
  obtain ⟨f, hu, hf, hq, -⟩ := adds_method h
  exact ⟨f, hu, hf, hq⟩

/-- A function that is compiled is added to what was built before. -/
theorem built_compile {u : FunctionUnit} {name : String} {fs : List CompiledFunction}
    {p q : Program} {a : Unit} (hp : Program.Built name fs p) (h : Yields u.compile p a q) :
    ∃ f : CompiledFunction, f.unit = u ∧ Program.Built name (fs ++ [f]) q := by
  obtain ⟨f, hu, hf, hq⟩ := adds_compile h
  exact ⟨f, hu, hq.built hp hf⟩

end FunctionUnit

namespace TranslationUnit

/-- The functions of a unit are read and added one after the other. -/
theorem built_forM : ∀ {ds : List FunctionDefinition} {name : String}
    {fs : List CompiledFunction} {p q : Program} {a : Unit}, Program.Built name fs p →
    Yields (ds.forM FunctionDefinition.compile) p a q →
    ∃ gs : List CompiledFunction, Program.Built name (fs ++ gs) q ∧
      ds.mapM FunctionUnit.ofDefinition = .ok (gs.map (·.unit))
  | [], name, fs, p, q, a, hp, h => by
    obtain ⟨-, rfl⟩ := pure_iff.1 h
    exact ⟨[], by simpa using hp, rfl⟩
  | d :: ds, name, fs, p, q, a, hp, h => by
    unfold List.forM at h
    rw [bind_iff] at h
    obtain ⟨_, r, hd, h⟩ := h
    unfold FunctionDefinition.compile at hd
    simp only [bind_iff, Build.yields_ofExcept] at hd
    obtain ⟨u, _, ⟨hu, rfl⟩, hd⟩ := hd
    obtain ⟨f, rfl, hr⟩ := FunctionUnit.built_compile hp hd
    obtain ⟨gs, hq, hgs⟩ := built_forM hr h
    refine ⟨f :: gs, by simpa using hq, ?_⟩
    rw [List.mapM_cons, hu]
    show (ds.mapM FunctionUnit.ofDefinition >>= fun rest => pure (f.unit :: rest)) = _
    rw [hgs]
    rfl

/-- A compiled module is built from the functions of the unit. -/
theorem built_of_compile {unit : TranslationUnit} {name : String} {m : Module}
    (h : unit.compile name = .ok m) :
    ∃ fs p, Program.Built name fs p ∧ p.module = m ∧
      unit.functions.mapM FunctionUnit.ofDefinition = .ok (fs.map (·.unit)) := by
  unfold compile at h
  rcases hc : unit.functions.forM FunctionDefinition.compile (.empty name) with ⟨r, p⟩
  rw [hc] at h
  cases r with
  | error e => cases h
  | ok a =>
    obtain rfl : p.module = m := by
      cases h
      rfl
    obtain ⟨fs, hp, hfs⟩ := built_forM .empty hc
    exact ⟨fs, p, by simpa using hp, rfl, hfs⟩

end TranslationUnit

/-! ## What is known of a compiled function -/

namespace Scope

/-- Two states of a scope between which parameters were bound. -/
structure Parameterizes (s t : Scope) (count : Nat) : Prop where
  eq : t = { s with
    assembler := { s.assembler with method := { s.assembler.method with
      parameters := t.assembler.method.parameters } }
    parameters := t.parameters }
  /-- How many parameters there are. -/
  length : t.assembler.method.parameters.length = s.assembler.method.parameters.length + count

theorem length_pushParameter (s : Scope) (p : Parameter) (target : TargetType) :
    (s.pushParameter p target).assembler.method.parameters.length =
      s.assembler.method.parameters.length + 1 := by
  simp [pushParameter, Assembler.pushParameter]

namespace BindsParameters

variable {s t : Scope} {ps : List Parameter} {signature : FunctionSignature}
  {functions : FunctionTable}

theorem parameterizes (h : s.BindsParameters ps t) : s.Parameterizes t ps.length := by
  induction h with
  | nil => exact ⟨rfl, rfl⟩
  | cons _ _ _ ih =>
    refine ⟨?_, ?_⟩
    · rw [ih.eq]
      rfl
    · rw [ih.length, length_pushParameter, List.length_cons]
      omega

/-- Parameters are only appended. -/
theorem prefix_parameters (h : s.BindsParameters ps t) :
    s.assembler.method.parameters <+: t.assembler.method.parameters := by
  induction h with
  | nil => exact List.prefix_rfl
  | cons _ _ _ ih => exact (List.prefix_append _ _).trans ih

/-- While parameters are bound nothing else happens. -/
theorem begins (h : BindsParameters (.begin signature functions) ps s) :
    s.signature = signature ∧ s.functions = functions ∧ s.names = s.parameters ∧ s.loops = [] ∧
      s.offset = 0 ∧ s.assembler.isTerminated = false := by
  have heq := h.parameterizes.eq
  refine ⟨?_, ?_, ?_, ?_, ?_, ?_⟩
  · rw [heq]
    rfl
  · rw [heq]
    rfl
  · unfold names
    rw [heq]
    rfl
  · rw [heq]
    rfl
  · rw [heq]
    rfl
  · rw [heq]
    rfl

end BindsParameters

end Scope

namespace FunctionUnit

/-- The instructions after the body are plain. -/
theorem isPlain_epilogue (u : FunctionUnit) : ∀ i ∈ u.epilogue, i.isPlain = true := by
  unfold epilogue
  split
  · simp
  · split
    · simp [Instruction.isPlain]
    · split <;> simp [Instruction.isPlain]

namespace Code

variable {u : FunctionUnit} {signature : FunctionSignature} {functions : FunctionTable}
  {m : Method}

/-- The method with the parameters bound and nothing else has grown to the finished method. -/
theorem extends_of_code (h : u.Code signature functions m) :
    ∃ parameters : List MethodParameter, parameters.length = u.parameterList.length ∧
      Method.Extends ⟨signature.name, .publicStatic, signature.method.returnType, parameters, #[], {}⟩
        m := by
  cases h with
  | mk hp hb _ =>
    rename_i s t _
    refine ⟨s.assembler.method.parameters, ?_, ?_⟩
    · rw [hp.parameterizes.length]
      simp [Scope.begin, Assembler.begin, Method.declare]
    · have hs : s.assembler.method = ⟨signature.name, .publicStatic, signature.method.returnType,
          s.assembler.method.parameters, #[], {}⟩ := by
        have := congrArg (fun s => s.assembler.method) hp.parameterizes.eq
        exact this
      rw [← hs]
      exact hb.grows.method.trans (Scope.emits_append _ _ u.isPlain_epilogue).method

theorem name (h : u.Code signature functions m) : m.name = signature.name := by
  obtain ⟨_, _, h⟩ := h.extends_of_code
  exact h.name

theorem returnType (h : u.Code signature functions m) :
    m.returnType = signature.method.returnType := by
  obtain ⟨_, _, h⟩ := h.extends_of_code
  exact h.returnType

/-- There are no protected regions in compiled functions. -/
theorem handlers (h : u.Code signature functions m) : m.body.handlers = [] := by
  obtain ⟨_, _, h⟩ := h.extends_of_code
  exact h.handlers

theorem isPlain (h : u.Code signature functions m) {pc : Nat} {i : Instruction}
    (hi : m.body.instructions[pc]? = some i) : i.isPlain = true := by
  obtain ⟨_, _, h⟩ := h.extends_of_code
  obtain ⟨added, hc, hp⟩ := h.code
  simp only [Array.empty_append] at hc
  exact hp i (by rw [← hc]; exact Array.mem_of_getElem? hi)

/-- No variable of a compiled function pins. -/
theorem unpinned (h : u.Code signature functions m) : ∀ v ∈ m.locals, v.pinned = false := by
  obtain ⟨_, _, h⟩ := h.extends_of_code
  obtain ⟨added, hl, hp⟩ := h.locals
  simp only [Array.empty_append] at hl
  rwa [hl]

end Code

/-- What calls are checked against is what the function is declared with. -/
theorem signature_eq_ok {u : FunctionUnit} {returnType : TargetType}
    {signature : FunctionSignature} (h : u.signature returnType = .ok signature) :
    signature.name = u.name ∧ signature.returnType = u.returnType ∧
      signature.parameters = u.parameterTypes ∧ signature.method.name = u.name ∧
      signature.method.returnType = returnType := by
  obtain ⟨types, _, h⟩ := Except.bind_eq_ok.1 h
  obtain rfl := Except.pure_eq_ok.1 h
  exact ⟨rfl, rfl, rfl, rfl, rfl⟩

end FunctionUnit

namespace CompiledFunction

theorem signature_name (f : CompiledFunction) : f.signature.name = f.unit.name :=
  (FunctionUnit.signature_eq_ok f.declared).1

theorem method_name (f : CompiledFunction) : f.method.name = f.unit.name :=
  f.code.name.trans f.signature_name

theorem ref_name (f : CompiledFunction) : f.signature.method.name = f.unit.name :=
  (FunctionUnit.signature_eq_ok f.declared).2.2.2.1

end CompiledFunction

namespace Program.Built

variable {name : String} {fs : List CompiledFunction} {p : Program}

/-- The table of functions has the signatures of the compiled functions, in order. -/
theorem signatures (h : Built name fs p) :
    p.functions.entries.map (·.signature) = fs.map (·.signature) := by
  induction h with
  | empty => rfl
  | function _ _ _ ih | entry _ _ _ _ _ ih | started _ _ _ _ _ _ ih =>
    simp [addFunction, FunctionTable.add, ih]

/-- What a compiled function can call was compiled before it. -/
theorem signature_of_mem (h : Built name fs p) {f : CompiledFunction} (hf : f ∈ fs)
    {e : FunctionEntry} (he : e ∈ f.functions.entries) : ∃ g ∈ fs, g.signature = e.signature := by
  have hnew : ∀ {fs : List CompiledFunction} {p : Program} {f g : CompiledFunction},
      Built name fs p → f.functions = p.functions →
      (g ∈ fs → ∀ e ∈ g.functions.entries, ∃ g ∈ fs, g.signature = e.signature) →
      g ∈ fs ++ [f] → ∀ e ∈ g.functions.entries, ∃ g ∈ fs ++ [f], g.signature = e.signature := by
    intro fs p f g hp hf ih hg e he
    rcases List.mem_append.1 hg with hg | hg
    · obtain ⟨g, hg, heq⟩ := ih hg e he
      exact ⟨g, List.mem_append_left _ hg, heq⟩
    · obtain rfl := List.mem_singleton.1 hg
      rw [hf] at he
      have hmem : e.signature ∈ fs.map (·.signature) := by
        rw [← hp.signatures]
        exact List.mem_map_of_mem he
      obtain ⟨g, hg, heq⟩ := List.mem_map.1 hmem
      exact ⟨g, List.mem_append_left _ hg, heq⟩
  induction h generalizing f e with
  | empty => cases hf
  | function hp hfs _ ih => exact hnew hp hfs (fun hg e he => ih hg he) hf e he
  | entry hp hfs _ _ _ ih => exact hnew hp hfs (fun hg e he => ih hg he) hf e he
  | started hp hfs _ _ _ _ ih => exact hnew hp hfs (fun hg e he => ih hg he) hf e he

/-- Every method of the module is that of a compiled function, or the starter. -/
theorem mem_methods (h : Built name fs p) {m : Method} (hm : m ∈ p.module.methods) :
    (∃ f ∈ fs, f.method = m) ∨
      ∃ f ∈ fs, f.unit.isEntry = true ∧ EntryPoint.starter f.signature.method = .ok m := by
  induction h with
  | empty => simp [Program.empty] at hm
  | function hp _ _ ih | entry hp _ _ _ _ ih =>
    rcases Array.mem_push.1 hm with hm | rfl
    · rcases ih hm with ⟨f, hf, rfl⟩ | ⟨f, hf, h⟩
      · exact .inl ⟨f, List.mem_append_left _ hf, rfl⟩
      · exact .inr ⟨f, List.mem_append_left _ hf, h⟩
    · exact .inl ⟨_, List.mem_append_right _ List.mem_cons_self, rfl⟩
  | started hp _ he _ _ hs ih =>
    rcases Array.mem_push.1 hm with hm | rfl
    · rcases Array.mem_push.1 hm with hm | rfl
      · rcases ih hm with ⟨f, hf, rfl⟩ | ⟨f, hf, h⟩
        · exact .inl ⟨f, List.mem_append_left _ hf, rfl⟩
        · exact .inr ⟨f, List.mem_append_left _ hf, h⟩
      · exact .inl ⟨_, List.mem_append_right _ List.mem_cons_self, rfl⟩
    · exact .inr ⟨_, List.mem_append_right _ List.mem_cons_self, he, hs⟩

/-- The methods of the compiled functions are in the module. -/
theorem method_mem (h : Built name fs p) {f : CompiledFunction} (hf : f ∈ fs) :
    f.method ∈ p.module.methods := by
  induction h with
  | empty => cases hf
  | function hp _ _ ih | entry hp _ _ _ _ ih =>
    rcases List.mem_append.1 hf with hf | hf
    · exact Array.mem_push.2 (.inl (ih hf))
    · obtain rfl := List.mem_singleton.1 hf
      exact Array.mem_push.2 (.inr rfl)
  | started hp _ _ _ _ _ ih =>
    rcases List.mem_append.1 hf with hf | hf
    · exact Array.mem_push.2 (.inl (Array.mem_push.2 (.inl (ih hf))))
    · obtain rfl := List.mem_singleton.1 hf
      exact Array.mem_push.2 (.inl (Array.mem_push.2 (.inr rfl)))

/-- The entry point is a method of the module. -/
theorem entryPoint_lt (h : Built name fs p) {id : Nat} (hid : p.module.entryPoint = some id) :
    id < p.module.methods.size := by
  induction h with
  | empty => cases hid
  | function _ _ _ ih =>
    have := ih hid
    simp [addFunction, Module.addMethod]
    omega
  | entry =>
    cases hid
    simp [addFunction, Module.addMethod]
  | started =>
    cases hid
    simp [addFunction, addMethod, Module.addMethod]

/-- The program starts with the method of the entry function, or with the starter of it. -/
theorem entryMethod (h : Built name fs p) {m : Method} (hm : p.module.entryMethod? = some m) :
    ∃ f ∈ fs, f.unit.isEntry = true ∧
      (m = f.method ∧ EntryPoint.needsStarter f.unit.parameters = .ok false ∨
        EntryPoint.starter f.signature.method = .ok m) := by
  induction h with
  | empty => cases hm
  | function hp _ _ ih =>
    rename_i q f _ _
    obtain ⟨id, hid, hm⟩ := Option.bind_eq_some_iff.1 hm
    have hlt := hp.entryPoint_lt hid
    have hm : q.module.methods[id]? = some m := by
      rw [← hm]
      exact (Array.getElem?_push_lt hlt).symm ▸ (Array.getElem?_eq_getElem hlt)
    obtain ⟨g, hg, h⟩ := ih (Option.bind_eq_some_iff.2 ⟨id, hid, hm⟩)
    exact ⟨g, List.mem_append_left _ hg, h⟩
  | entry _ _ he _ hn _ =>
    refine ⟨_, List.mem_append_right _ List.mem_cons_self, he, .inl ⟨?_, hn⟩⟩
    simp [Module.entryMethod?, addFunction, Module.addMethod] at hm
    exact hm.symm
  | started _ _ he _ _ hs _ =>
    refine ⟨_, List.mem_append_right _ List.mem_cons_self, he, .inr ?_⟩
    simp [Module.entryMethod?, addFunction, addMethod, Module.addMethod, Array.getElem_push] at hm
    exact hm ▸ hs

end Program.Built

end ManagedC
