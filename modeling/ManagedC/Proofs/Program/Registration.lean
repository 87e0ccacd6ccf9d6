import ManagedC.CommandLine
import ManagedC.Syntax.Construct
import ManagedC.Proofs.Emit.FunctionCode

/-!
# A function is added whole or not at all

The last step of compiling a function sets the entry point, when the function is in the program
already. It cannot fail: whether the entry point is free was asked at the start, and an entry point
that designates no method, which the method just added could turn into one, does not come up in a
program that was built from nothing (`Program.Built.entryPoint_eq_none`). So a failure leaves no
trace, and going on after it leads to the program that the other functions alone lead to. Main
statement: `FunctionDefinition.compile_wholeOrNot`.
-/

namespace ManagedC

/-- Whether the function is added together with a starter. -/
def FunctionUnit.isBridged (u : FunctionUnit) : Bool :=
  u.isEntry && (EntryPoint.needsStarter u.parameters).toOption == some true

namespace Program

/-- The programs that definitions lead to which are compiled one after the other, going on after
those that fail. -/
inductive Reached (name : String) : Program → Prop where
  | empty : Reached name (.empty name)
  /-- One more definition was compiled, or failed to. -/
  | next {p : Program} (d : FunctionDefinition) : Reached name p → Reached name (d.compile p).2

/-- What a compiled function changes: the table has one more entry at its end, for the method that
comes first behind those that were there. A starter comes second, and only the entry point of an
entry function is new. -/
structure Registers (p : Program) (f : CompiledFunction) (q : Program) : Prop where
  /-- The function was compiled against the functions that were there. -/
  known : f.functions = p.functions
  /-- The table of functions. -/
  functions : q.functions.entries = p.functions.entries ++ [⟨f.signature, p.module.methods.size⟩]
  /-- The methods. -/
  methods : if f.unit.isBridged then
      ∃ starter, EntryPoint.starter f.signature.method = .ok starter ∧
        q.module.methods = p.module.methods ++ #[f.method, starter]
    else q.module.methods = p.module.methods ++ #[f.method]
  /-- The entry point. -/
  entryPoint : if f.unit.isEntry then
      p.module.entryPoint = none ∧ q.module.entryPoint = some (q.module.methods.size - 1)
    else q.module.entryPoint = p.module.entryPoint
  /-- The name of the module. -/
  name : q.module.name = p.module.name

/-- The definitions that compile when it is their turn. -/
def compiling : Program → List FunctionDefinition → List FunctionDefinition
  | _, [] => []
  | p, d :: ds =>
    match d.compile p with
    | (.ok _, q) => d :: q.compiling ds
    | (.error _, q) => q.compiling ds

end Program

/-! ## The entry point -/

namespace Program

variable {name : String} {fs : List CompiledFunction} {f : CompiledFunction} {p q : Program}

theorem Built.entryPoint_eq_none (h : Built name fs p) (hfree : p.module.entryMethod? = none) :
    p.module.entryPoint = none := by
  cases hid : p.module.entryPoint with
  | none => rfl
  | some id =>
    have hlt := h.entryPoint_lt hid
    unfold Module.entryMethod? at hfree
    rw [hid, Option.bind_some, Array.getElem?_eq_getElem hlt] at hfree
    cases hfree

/-- The entry point can be set to the last method if it was never set. -/
theorem setEntryPoint_last {function : String} {location : Location} {e : CompileError}
    (hnone : p.module.entryPoint = none) (hpos : 0 < p.module.methods.size) :
    p.setEntryPoint (p.module.methods.size - 1) function location ≠ .error e := by
  have hlast : p.module.methods.size - 1 < p.module.methods.size := by omega
  have hfree : p.module.entryMethod? = none := by
    unfold Module.entryMethod?
    rw [hnone, Option.bind_none]
  unfold setEntryPoint Module.setEntryPoint
  rw [Array.getElem?_eq_getElem hlast, hfree]
  intro h
  cases h

theorem Adds.registers (hp : Built name fs p) (hf : f.functions = p.functions) (h : p.Adds f q) :
    p.Registers f q := by
  cases h with
  | function he =>
    refine ⟨hf, rfl, ?_, ?_, rfl⟩
    · simp [FunctionUnit.isBridged, he, addFunction, Module.addMethod]
    · simp [he, addFunction, Module.addMethod]
  | entry he hfree hn =>
    have hb : f.unit.isBridged = false := by
      simp [FunctionUnit.isBridged, hn, Except.toOption]
    refine ⟨hf, rfl, ?_, ?_, rfl⟩
    · simp [hb, addFunction, Module.addMethod]
    · simp [he, hp.entryPoint_eq_none hfree, addFunction, Module.addMethod]
  | started he hfree hn hs =>
    rename_i starter
    have hb : f.unit.isBridged = true := by
      simp [FunctionUnit.isBridged, he, hn, Except.toOption]
    refine ⟨hf, rfl, ?_, ?_, rfl⟩
    · rw [if_pos hb]
      refine ⟨starter, hs, ?_⟩
      show (p.module.methods.push f.method).push starter = _
      exact Array.toList_inj.1 (by simp)
    · simp [he, hp.entryPoint_eq_none hfree, addFunction, addMethod, Module.addMethod]

end Program

/-! ## Failures -/

namespace Build

variable {α : Type} {p q : Program} {e : CompileError}

theorem fails_ofExcept {r : Except CompileError α} :
    Fails (ofExcept r) p e q ↔ r = .error e ∧ q = p := by
  constructor
  · intro h
    cases h
    exact ⟨rfl, rfl⟩
  · rintro ⟨rfl, rfl⟩
    rfl

end Build

namespace FunctionUnit

open Fails

variable {name : String} {fs : List CompiledFunction} {p q : Program} {e : CompileError}

/-- A function that fails to compile leaves the program as it was. -/
theorem eq_of_fails {u : FunctionUnit} (hp : Program.Built name fs p)
    (h : Fails u.compile p e q) : q = p := by
  unfold compile at h
  simp only [bind_iff, Build.fails_ofExcept, Build.yields_ofExcept, Fails.not_get, Fails.not_modify,
    Yields.get_iff, Yields.modify_iff, false_or] at h
  rcases h with ⟨-, rfl⟩ | ⟨returnType, _, ⟨-, rfl⟩, _, _, ⟨rfl, rfl⟩, h⟩
  · rfl
  rename_i p
  rcases h with ⟨-, rfl⟩ | ⟨needsStarter, _, ⟨hn, rfl⟩, h⟩
  · rfl
  rename_i p
  rcases h with ⟨-, rfl⟩ | ⟨signature, _, ⟨-, rfl⟩, _, _, ⟨rfl, rfl⟩, h⟩
  · rfl
  rename_i p
  rcases h with ⟨-, rfl⟩ | ⟨method, _, ⟨-, rfl⟩, h⟩
  · rfl
  rename_i p
  rcases h with ⟨-, rfl⟩ | ⟨starter, _, ⟨-, rfl⟩, _, _, rfl, h⟩
  · rfl
  rename_i p _
  -- From here on the function is in the program, and there must not be a failure any more.
  exfalso
  split at h
  · rename_i hu
    have hnone : p.module.entryPoint = none := by
      rcases checkParameters_eq_ok hn with ⟨hu', -⟩ | ⟨-, hfree, -⟩
      · rw [hu] at hu'
        cases hu'
      · exact hp.entryPoint_eq_none hfree
    cases starter with
    | none =>
      simp only [bind_iff, Build.fails_ofExcept, Build.yields_ofExcept, Yields.get_iff, not_get,
        not_set, false_or, and_false, exists_false, or_false] at h
      obtain ⟨_, _, ⟨rfl, rfl⟩, _, _, ⟨rfl, rfl⟩, herror, -⟩ := h
      exact Program.setEntryPoint_last (p := p.addFunction signature method) hnone
        (by simp [Program.addFunction, Module.addMethod]) herror
    | some starter =>
      simp only [bind_iff, Build.fails_ofExcept, Build.yields_ofExcept, Yields.get_iff,
        Yields.modify_iff, not_get, not_modify, not_set, false_or, and_false, exists_false,
        or_false] at h
      obtain ⟨_, _, rfl, _, _, ⟨rfl, rfl⟩, _, _, ⟨rfl, rfl⟩, herror, -⟩ := h
      exact Program.setEntryPoint_last (p := (p.addFunction signature method).addMethod starter)
        hnone (by simp [Program.addMethod, Module.addMethod]) herror
  · exact not_pure h

end FunctionUnit

namespace FunctionDefinition

variable {name : String} {fs : List CompiledFunction} {p q : Program} {d : FunctionDefinition}

theorem eq_of_fails {e : CompileError} (hp : Program.Built name fs p)
    (h : Fails d.compile p e q) : q = p := by
  unfold compile at h
  simp only [Fails.bind_iff, Build.fails_ofExcept, Build.yields_ofExcept] at h
  rcases h with ⟨-, rfl⟩ | ⟨u, _, ⟨-, rfl⟩, h⟩
  · rfl
  · exact FunctionUnit.eq_of_fails hp h

theorem registers_compile {a : Unit} (hp : Program.Built name fs p) (h : Yields d.compile p a q) :
    ∃ f : CompiledFunction, FunctionUnit.ofDefinition d = .ok f.unit ∧ p.Registers f q ∧
      Program.Built name (fs ++ [f]) q := by
  unfold compile at h
  simp only [Yields.bind_iff, Build.yields_ofExcept] at h
  obtain ⟨u, _, ⟨hu, rfl⟩, h⟩ := h
  obtain ⟨f, rfl, hf, hadds⟩ := FunctionUnit.adds_compile h
  exact ⟨f, hu, hadds.registers hp hf, hadds.built hp hf⟩

end FunctionDefinition

/-! ## All functions of a unit -/

namespace Program

variable {name : String} {p q : Program}

theorem Reached.built (h : Reached name p) : ∃ fs, Built name fs p := by
  induction h with
  | empty => exact ⟨[], .empty⟩
  | next d _ ih =>
    rename_i p _
    obtain ⟨fs, hp⟩ := ih
    rcases hd : d.compile p with ⟨e | a, q⟩
    · obtain rfl := FunctionDefinition.eq_of_fails hp hd
      exact ⟨fs, hp⟩
    · obtain ⟨f, -, -, hq⟩ := FunctionDefinition.registers_compile hp hd
      exact ⟨fs ++ [f], hq⟩

end Program

namespace TranslationUnit

variable {name : String} {p q : Program} {d : FunctionDefinition} {ds : List FunctionDefinition}
  {errors : List CompileError}

theorem compileNext_of_yields (h : Yields d.compile p () q) :
    compileNext (p, errors) d = (q, errors) := by
  unfold compileNext
  rw [show d.compile p = (.ok (), q) from h]

theorem compileNext_of_fails {e : CompileError} (h : Fails d.compile p e q) :
    compileNext (p, errors) d = (q, errors ++ [e]) := by
  unfold compileNext
  rw [show d.compile p = (.error e, q) from h]

/-- Errors that were told stay. -/
theorem errors_foldl : ∀ (ds : List FunctionDefinition) (p : Program) (errors : List CompileError),
    errors <+: (ds.foldl compileNext (p, errors)).2
  | [], _, _ => List.prefix_rfl
  | d :: ds, p, errors => by
    rw [List.foldl_cons]
    rcases hd : d.compile p with ⟨e | ⟨⟩, q⟩
    · rw [compileNext_of_fails hd]
      exact (List.prefix_append _ _).trans (errors_foldl ds q _)
    · rw [compileNext_of_yields hd]
      exact errors_foldl ds q errors

/-- There is no error in the end if and only if all definitions compile one after the other. -/
theorem foldl_eq_iff : ∀ {ds : List FunctionDefinition} {p : Program},
    ds.foldl compileNext (p, []) = (q, []) ↔ Yields (ds.forM FunctionDefinition.compile) p () q
  | [], p => by
    constructor
    · intro h
      cases h
      rfl
    · intro h
      cases h
      rfl
  | d :: ds, p => by
    unfold List.forM
    rw [List.foldl_cons, Yields.bind_iff]
    rcases hd : d.compile p with ⟨e | ⟨⟩, r⟩
    · rw [compileNext_of_fails hd]
      constructor
      · intro h
        have herrors := errors_foldl ds r ([] ++ [e])
        rw [h] at herrors
        exact absurd (List.prefix_nil.1 herrors) (by simp)
      · rintro ⟨_, _, h, -⟩
        unfold Yields at h
        rw [hd] at h
        cases h
    · rw [compileNext_of_yields hd, foldl_eq_iff]
      constructor
      · intro h
        exact ⟨(), r, hd, h⟩
      · rintro ⟨_, _, h, h'⟩
        obtain ⟨-, rfl⟩ := Yields.unique hd h
        exact h'

/-- Where failures leave the program as it is, going on after them leads to what the other definitions
lead to, and none of those fails. -/
theorem yields_compiling : ∀ {ds : List FunctionDefinition} {fs : List CompiledFunction}
    {p : Program} (_ : Program.Built name fs p) (errors : List CompileError),
    Yields ((p.compiling ds).forM FunctionDefinition.compile) p ()
      (ds.foldl compileNext (p, errors)).1
  | [], fs, p, hp, errors => rfl
  | d :: ds, fs, p, hp, errors => by
    rw [List.foldl_cons, Program.compiling]
    rcases hd : d.compile p with ⟨e | ⟨⟩, q⟩
    · rw [compileNext_of_fails hd]
      obtain rfl := FunctionDefinition.eq_of_fails hp hd
      exact yields_compiling hp _
    · rw [compileNext_of_yields hd]
      obtain ⟨f, -, -, hq⟩ := FunctionDefinition.registers_compile hp hd
      unfold List.forM
      exact Yields.bind_iff.2 ⟨(), q, hd, yields_compiling hq errors⟩

/-- A unit compiles if and only if there is no error when all its functions are tried. -/
theorem compile_eq_ok_iff {unit : TranslationUnit} {m : Module} :
    unit.compile name = .ok m ↔
      (unit.compileAll name).2 = [] ∧ (unit.compileAll name).1.module = m := by
  unfold compile
  rcases hc : unit.functions.forM FunctionDefinition.compile (.empty name) with ⟨e | ⟨⟩, p⟩
  · constructor
    · intro h
      cases h
    · rintro ⟨hnil, -⟩
      have hall : unit.compileAll name = ((unit.compileAll name).1, []) := Prod.ext rfl hnil
      have hyields := foldl_eq_iff.1 hall
      unfold Yields at hyields
      rw [hc] at hyields
      cases hyields
  · have hall : unit.compileAll name = (p, []) := foldl_eq_iff.2 hc
    rw [hall]
    constructor
    · intro h
      cases h
      exact ⟨rfl, rfl⟩
    · rintro ⟨-, rfl⟩
      rfl

end TranslationUnit

/-! ## The log of errors -/

namespace DiagnosticLog

/-- Every reported error counts as one. -/
theorem count_error_foldl : ∀ (errors : List CompileError) (log : DiagnosticLog),
    (errors.foldl (fun log e => log.addReport e.report) log).count .error =
      log.count .error + errors.length
  | [], log => rfl
  | e :: errors, log => by
    rw [List.foldl_cons, count_error_foldl errors, List.length_cons]
    have hadd : (log.addReport e.report).count .error = log.count .error + 1 := by
      unfold addReport add count
      simp [Diagnostic.ofReport]
    omega

theorem hasErrors_reports (errors : List CompileError) :
    (errors.foldl (fun log e => log.addReport e.report) ({} : DiagnosticLog)).hasErrors = true ↔
      errors ≠ [] := by
  unfold hasErrors
  rw [count_error_foldl]
  cases errors with
  | nil => simp [count]
  | cons e errors =>
    rw [List.length_cons]
    exact iff_of_true (decide_eq_true (by omega)) (by simp)

end DiagnosticLog

/-- Going on after failures gives a program if and only if stopping at the first one does, and then it
is the same. -/
theorem CommandLine.compileUnit_keepGoing {unit : TranslationUnit} {name : String} {m : Module} :
    compileUnit unit name true = .ok m ↔ unit.compile name = .ok m := by
  rw [TranslationUnit.compile_eq_ok_iff]
  unfold compileUnit
  rw [if_pos rfl]
  rcases unit.compileAll name with ⟨p, errors⟩
  simp only
  split
  · rename_i h
    constructor
    · intro h
      cases h
    · rintro ⟨hnil, -⟩
      exact absurd hnil ((DiagnosticLog.hasErrors_reports errors).1 h)
  · rename_i h
    have hnil : errors = [] := by
      cases errors with
      | nil => rfl
      | cons e errors => exact absurd ((DiagnosticLog.hasErrors_reports _).2 (by simp)) h
    constructor
    · intro h
      cases h
      exact ⟨hnil, rfl⟩
    · rintro ⟨-, rfl⟩
      rfl

/-- A definition that fails leaves the program as it was, in every program that definitions lead to,
and one that compiles adds an entry and a method, or a method and its starter. So the program that is
left when failures are ignored is that of the definitions that compile, and a unit compiles in one
piece if and only if it compiles piece by piece. -/
theorem FunctionDefinition.compile_wholeOrNot (name : String) :
    (∀ p : Program, p.Reached name → ∀ (d : FunctionDefinition) (q : Program),
      (∀ e, Fails d.compile p e q → q = p) ∧
      (Yields d.compile p () q →
        ∃ f : CompiledFunction, FunctionUnit.ofDefinition d = .ok f.unit ∧ p.Registers f q)) ∧
    (∀ ds : List FunctionDefinition,
      TranslationUnit.compileAll ⟨(Program.empty name).compiling ds⟩ name =
        ((TranslationUnit.compileAll ⟨ds⟩ name).1, [])) ∧
    (∀ (unit : TranslationUnit) (m : Module),
      CommandLine.compileUnit unit name true = .ok m ↔ unit.compile name = .ok m) := by
  refine ⟨?_, ?_, ?_⟩
  · intro p hp d q
    obtain ⟨fs, hbuilt⟩ := hp.built
    refine ⟨fun e h => eq_of_fails hbuilt h, ?_⟩
    intro h
    obtain ⟨f, hf, hregisters, -⟩ := registers_compile hbuilt h
    exact ⟨f, hf, hregisters⟩
  · intro ds
    exact TranslationUnit.foldl_eq_iff.2 (TranslationUnit.yields_compiling .empty [])
  · intro unit m
    exact CommandLine.compileUnit_keepGoing

/-- A function that jumps to a label, which is not supported. -/
def FunctionDefinition.jumping : FunctionDefinition :=
  Construct.intFunction "g" none [Construct.goto "away"]

/-- An entry function that takes the arguments of the program. -/
def FunctionDefinition.started : FunctionDefinition :=
  Construct.intFunction "main" (some Construct.commandLineParameters)
    [Construct.ret (some (Construct.int 0))]

/-- The first of the two leaves no trace, and the second is added with its starter. -/
theorem FunctionDefinition.compile_jumping_started :
    ∃ (e : CompileError) (q : Program) (f : CompiledFunction),
      Fails jumping.compile (.empty "flawed") e (.empty "flawed") ∧
      Yields started.compile (.empty "flawed") () q ∧
      f.unit.isBridged = true ∧ (Program.empty "flawed").Registers f q := by
  obtain ⟨hatomic, -⟩ := compile_wholeOrNot "flawed"
  have hjumping : (jumping.compile (.empty "flawed")).1.toOption = none := by decide +kernel
  have hstarted : (started.compile (.empty "flawed")).1.toOption = some () := by
    decide +kernel
  have hbridged : (FunctionUnit.ofDefinition started).toOption.map (·.isBridged) = some true := by
    decide +kernel
  rcases hfails : jumping.compile (.empty "flawed") with ⟨e | a, p⟩
  · obtain rfl := (hatomic _ .empty jumping p).1 e hfails
    rcases hyields : started.compile (.empty "flawed") with ⟨e | ⟨⟩, q⟩
    · rw [hyields] at hstarted
      cases hstarted
    · obtain ⟨f, hf, hregisters⟩ := (hatomic _ .empty started q).2 hyields
      rw [hf] at hbridged
      exact ⟨e, q, f, hfails, hyields, Option.some.inj hbridged, hregisters⟩
  · rw [hfails] at hjumping
    cases hjumping

end ManagedC
