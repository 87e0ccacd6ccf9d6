import ManagedC.Proofs.Emit.FunctionCode
import ManagedC.Proofs.Returns.Code
import ManagedC.Proofs.Run.InnerFaults
import ManagedC.Proofs.Unwinding.Incidents

/-!
# How compiled functions end

If the shape of a body shows that every way through it returns, control never comes to the end of its
code. Otherwise instructions are added: an entry function returns zero, a function without a result
returns, and any other function is left as it is. Main statement: what is added is exactly this, and
no call of an entry function or of a function without a result ever runs into the end of its
instructions (`FunctionDefinition.compile_returns`).
-/

namespace ManagedC

open Yields Emit

/-- A call faults as if there were no instruction only where there is none. -/
theorem Run.Crashes.instruction_eq_none {program : Module} {limits : Limits} {r : Run} {t : Store}
    {steps : Nat} {c : Crash} (h : r.Crashes program limits t steps c)
    (hfault : c.fault.isFellOff = true) : r.current.instruction? = none := by
  have hinner : c.fault.isOuter ≠ false := fun hinner =>
    absurd (Fault.isFellOff_of_not_isOuter hinner) (by rw [hfault]; nofun)
  cases h with
  | fellOff _ hi => exact hi
  | faulted _ _ _ hfails => exact absurd (r.current.inner_execute _ _ _ _ hfails) hinner
  | callRefused _ _ _ _ henter => exact absurd (Activation.inner_enter _ _ _ _ _ henter) hinner
  | limit | callMissing | callShort | retEmpty | leaveUnbound => cases hfault

/-- No instruction of the method is missing in any run: a call of it never faults because it has run
into its end, whatever the outermost call and its arguments are, and whatever the store is that the
run begins with. -/
def Method.NeverFallsOff (m : Method) : Prop :=
  ∀ (program : Module) (limits : Limits) (host : Method) (arguments : List Value) (depth : Nat)
    (a : Activation) (store t : Store) (steps steps' : Nat) (r : Run) (c : Crash),
    Activation.enter host arguments depth limits.depth = .ok a →
    Run.Leads program limits ⟨store, steps, a, []⟩ r → r.current.method = m →
    r.Crashes program limits t steps' c → ∀ name, c.fault ≠ .invalidProgram (.fellOff name)

/-- A method that no run comes to the end of does not fault there. -/
theorem Method.NeverEnds.neverFallsOff {m : Method} (h : m.NeverEnds) : m.NeverFallsOff := by
  intro program limits host arguments depth a store t steps steps' r c henter hleads hm hcrashes name
    hfault
  have hpc := h program limits host arguments depth a store steps r henter hleads r.current
    List.mem_cons_self hm
  have hnone := hcrashes.instruction_eq_none (by rw [hfault]; rfl)
  rw [Activation.instruction?, hm, Array.getElem?_eq_getElem hpc] at hnone
  cases hnone

namespace FunctionUnit

/-- How the method of a function ends. -/
structure Ends (u : FunctionUnit) (signature : FunctionSignature) (functions : FunctionTable)
    (m : Method) : Prop where
  /-- If the body returns, no run comes to the end of the method. -/
  never : u.body.returns = true → m.NeverEnds
  /-- What the code of the body, which is emitted after the parameters are bound, is followed by. -/
  code : ∃ bound written : Scope,
    Yields (u.parameterList.forM fun p => discard <| bindParameter p.name p.type u.location)
      (.begin signature functions) () bound ∧
    Yields u.body.compile bound () written ∧
    m.body.labels = written.assembler.method.body.labels ∧
    (u.body.returns = true →
      m.body.instructions = written.assembler.method.body.instructions) ∧
    (u.body.returns = false → u.name = EntryPoint.functionName → m.body.instructions =
      written.assembler.method.body.instructions ++ #[.constInt32 0, .ret]) ∧
    (u.body.returns = false → u.name ≠ EntryPoint.functionName → u.returnType.isVoid = true →
      m.body.instructions = written.assembler.method.body.instructions ++ #[.ret]) ∧
    (u.body.returns = false → u.name ≠ EntryPoint.functionName → u.returnType.isVoid = false →
      m.body.instructions = written.assembler.method.body.instructions)
  /-- No run comes to the end of an entry function, or of a function without a result, and none faults
  there. -/
  always : u.name = EntryPoint.functionName ∨ u.returnType.isVoid = true →
    m.NeverEnds ∧ m.NeverFallsOff

variable {u : FunctionUnit} {s t : Scope}

/-- The code of a body and the instructions after it do not lead to the end, if the body returns or if
there are instructions after it. -/
theorem stays_epilogue (h : Body.Code s [u.body] t) (hoffset : s.offset = 0) (hloops : s.loops = [])
    (hends : u.body.returns = true ∨ u.isEntry = true ∨ u.returnType.isVoid = true) :
    (t.append [] u.epilogue).assembler.method.Stays 0 := by
  have hemits := Scope.emits_append t [] u.isPlain_epilogue
  have hspans := h.spans
  cases hreturns : u.body.returns with
  | true =>
    rw [← hoffset]
    exact h.stays hemits.method hloops (by simpa [Body.anyReturns] using hreturns)
  | false =>
    -- the end of the body's code is the start of the instructions after it, which return
    have hend : (t.append [] u.epilogue).assembler.method.Stays t.offset := by
      have hcode : (t.append [] u.epilogue).assembler.method.HasCode t.offset u.epilogue :=
        Scope.hasCode_append (.refl _)
      unfold epilogue at hcode ⊢
      rw [if_neg (by simp [hreturns])] at hcode ⊢
      by_cases he : u.isEntry = true
      · rw [if_pos he] at hcode ⊢
        refine .of_end (.single_next hcode.head rfl (.inl ?_)) (Nat.le_succ _) ?_
          (.of_ret hcode.tail.head)
        · omega
        · exact (Array.getElem?_eq_some_iff.1 hcode.tail.head).1.le
      · rw [if_neg he] at hcode ⊢
        have hv := (hends.resolve_left (by simp [hreturns])).resolve_left he
        rw [if_pos hv] at hcode ⊢
        exact .of_ret hcode.head
    rw [← hoffset]
    exact hspans.stays hemits.method hloops hend

/-- The method of a function ends as it should. -/
theorem ends_method {signature : FunctionSignature} {functions : FunctionTable} {m : Method}
    (h : u.method signature functions = .ok m) : u.Ends signature functions m := by
  have hhandlers := (code_method h).handlers
  obtain ⟨bound, written, hp, hb, -, rfl⟩ := method_eq_ok h
  have hbound := (yields_bindParameters hp).parameterizes.eq
  have hoffset : bound.offset = 0 := by
    rw [hbound]
    rfl
  have hloops : bound.loops = [] := by
    rw [hbound]
    rfl
  have hstays := stays_epilogue (u.body.code_compile hb) hoffset hloops
  have hentry : u.isEntry = true ↔ u.name = EntryPoint.functionName := by simp [isEntry]
  refine ⟨fun hr => (hstays (.inl hr)).neverEnds hhandlers,
    ⟨bound, written, hp, hb, rfl, ?_, ?_, ?_, ?_⟩, fun hends => ?_⟩
  · intro hr
    simp [epilogue, hr]
  · intro hr hname
    simp [epilogue, hr, hentry.2 hname, Scope.append]
  · intro hr hname hv
    simp [epilogue, hr, mt hentry.1 hname, hv, Scope.append]
  · intro hr hname hv
    simp [epilogue, hr, mt hentry.1 hname, hv, Scope.append]
  · have hnever := (hstays (.inr (hends.imp_left hentry.2))).neverEnds hhandlers
    exact ⟨hnever, hnever.neverFallsOff⟩

end FunctionUnit

/-- A function definition that compiles adds its method to the program, and the method ends as it
should. -/
theorem FunctionDefinition.compile_returns {d : FunctionDefinition} {p q : Program}
    (h : d.compile p = (.ok (), q)) : ∃ u returnType signature m,
      FunctionUnit.ofDefinition d = .ok u ∧ u.targetReturn = .ok returnType ∧
      u.signature returnType = .ok signature ∧
      q.module.methods[p.module.methods.size]? = some m ∧ m.name = u.name ∧
      u.Ends signature p.functions m := by
  have hcompile : Yields d.compile p () q := h
  unfold compile at hcompile
  simp only [bind_iff, Build.yields_ofExcept] at hcompile
  obtain ⟨u, _, ⟨hu, rfl⟩, hcompile⟩ := hcompile
  obtain ⟨f, rfl, hf, hadds, hmethod⟩ := FunctionUnit.adds_method hcompile
  rw [hf] at hmethod
  refine ⟨f.unit, f.returnType, f.signature, f.method, hu, f.returns, f.declared, ?_, f.method_name,
    FunctionUnit.ends_method hmethod⟩
  cases hadds with
  | function | entry => simp [Program.addFunction, Module.addMethod]
  | started =>
    simp [Program.addFunction, Program.addMethod, Module.addMethod, Array.getElem_push]

/-- `int main() { while (1) if (1) break; if (0) return 1; else return 2; }`: every way through it
returns, a loop is left on the way, and the label after the choice is bound at the end of the code. -/
def FunctionDefinition.settled : FunctionDefinition where
  specifiers := [.type .int]
  declarator := .mk [] (.function (.identifier "main") none) .unknown
  declarations := []
  body := .compound .unknown
    [.whileLoop .unknown (.intLiteral .unknown 1)
      (.conditional .unknown (.intLiteral .unknown 1) (.exitLoop .unknown) none),
    .conditional .unknown (.intLiteral .unknown 0)
      (.ret .unknown (some (.intLiteral .unknown 1)))
      (some (.ret .unknown (some (.intLiteral .unknown 2))))]
  span := .unknown

/-- That function is compiled to a method whose end no run comes to. -/
theorem FunctionDefinition.compile_settled : ∃ q u returnType signature m,
    settled.compile (.empty "settled") = (.ok (), q) ∧
    FunctionUnit.ofDefinition settled = .ok u ∧ u.targetReturn = .ok returnType ∧
    u.signature returnType = .ok signature ∧ q.module.methods[0]? = some m ∧ m.name = u.name ∧
    u.Ends signature {} m ∧ u.body.returns = true ∧ m.NeverEnds := by
  have hsucceeds : ∀ (x : Build Unit) (p : Program), (x p).1 = .ok () → ∃ q, x p = (.ok (), q) :=
    fun x p h => ⟨(x p).2, Prod.ext h rfl⟩
  have hcompile : (settled.compile (.empty "settled")).1 = .ok () := by cbv
  have hreturns : (FunctionUnit.ofDefinition settled).map (·.body.returns) = .ok true := by cbv
  obtain ⟨q, hpair⟩ := hsucceeds _ _ hcompile
  obtain ⟨u, returnType, signature, m, hu, htarget, hsignature, hm, hname, hends⟩ :=
    compile_returns hpair
  have hreturns : u.body.returns = true := by
    rw [hu] at hreturns
    exact Except.ok.inj hreturns
  exact ⟨q, u, returnType, signature, m, hpair, hu, htarget, hsignature, hm, hname, hends, hreturns,
    hends.never hreturns⟩

end ManagedC
