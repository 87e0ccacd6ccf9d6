import ManagedC.Proofs.Emit.FunctionCode

/-!
# Which functions compiled code calls

A call refers to a function by name when it is compiled, and to a method when it runs. Main
statements: every call in the code of a function names the method that its name referred to while
the function was compiled (`FunctionUnit.Code.callsKnown`), and what a function is called by is the
reference of the method that it becomes (`CompiledFunction.ref_method`).
-/

namespace ManagedC

namespace Scope

/-- Every call in the method under construction names the method of a function that can be referred
to. -/
def CallsKnown (s : Scope) : Prop :=
  ∀ target, Instruction.call target ∈ s.assembler.method.body.instructions →
    ∃ name signature, s.findFunction? name = some signature ∧ signature.method = target

namespace CallsKnown

variable {s t : Scope}

theorem append {ts : List TargetType} {code : List Instruction} (h : s.CallsKnown)
    (hcode : ∀ target, Instruction.call target ∈ code →
      ∃ name signature, s.findFunction? name = some signature ∧ signature.method = target) :
    (s.append ts code).CallsKnown := by
  intro target htarget
  rcases Array.mem_append.1 htarget with hold | hnew
  · exact h target hold
  · exact hcode target (List.mem_toArray.1 hnew)

/-- Code without calls can be added. -/
theorem quiet {ts : List TargetType} {code : List Instruction} (h : s.CallsKnown)
    (hcode : ∀ target, Instruction.call target ∉ code) : (s.append ts code).CallsKnown :=
  h.append fun target htarget => absurd htarget (hcode target)

theorem binds {label : Label} (h : s.CallsKnown) (hb : s.Binds label t) : t.CallsKnown := by
  intro target htarget
  rw [hb.instructions] at htarget
  obtain ⟨name, signature, hfind, hmethod⟩ := h target htarget
  refine ⟨name, signature, ?_, hmethod⟩
  rw [hb.emits.eq]
  exact hfind

end CallsKnown

theorem callsKnown_begin (signature : FunctionSignature) (functions : FunctionTable) :
    (begin signature functions).CallsKnown := by
  intro target htarget
  exact absurd htarget (by simp [begin, Assembler.begin, Method.declare])

theorem BindsParameters.callsKnown {s t : Scope} {ps : List Parameter}
    (h : s.BindsParameters ps t) (hs : s.CallsKnown) : t.CallsKnown := by
  have hp := h.parameterizes.eq
  rw [hp]
  exact hs

end Scope

/-! ## The pieces of code without calls -/

theorem call_notMem_coercion {source target : CType} {ref : MethodRef} :
    Instruction.call ref ∉ coercion source target := by
  unfold coercion
  grind

theorem OperatorCode.call_notMem {slot : UInt16} {op : BinaryOp} {left right type : CType}
    {ts : List TargetType} {code : List Instruction}
    (h : OperatorCode slot op left right ts code type) (ref : MethodRef) :
    Instruction.call ref ∉ code := by
  cases h <;> grind [unification, comparisonCode, scaling, unscaling]

theorem Variable.call_notMem_load (v : Variable) (ref : MethodRef) :
    Instruction.call ref ∉ [v.load] := by
  obtain ⟨_ | _, _⟩ := v <;> simp [load]

theorem Variable.call_notMem_store (v : Variable) (ref : MethodRef) :
    Instruction.call ref ∉ [.dup, v.store] := by
  obtain ⟨_ | _, _⟩ := v <;> simp [store]

/-! ## Expressions and bodies -/

/-- The calls of an expression are known if those before it are. -/
theorem Emission.Code.callsKnown {s t : Scope} {k : Emission} (h : Code s k t)
    (hs : s.CallsKnown) : t.CallsKnown := by
  induction h with
  | intLiteral | longLiteral => exact hs.quiet (by simp)
  | identifier => exact hs.quiet (Variable.call_notMem_load _)
  | logical _ _ _ _ hw ht ihl ihr =>
    have hu := ihl hs
    have hv := ihr (hu.quiet (by simp))
    exact ((hv.quiet (by simp)).binds hw |>.quiet (by simp)).binds ht
  | binary _ _ hcode ihl ihr => exact (ihr (ihl hs)).quiet hcode.call_notMem
  | negate _ _ ih | bitNot _ _ ih | logicalNot _ _ ih | load _ _ ih =>
    exact (ih hs).quiet (by simp)
  | @call s u _ _ name _ signature hfind _ harguments ih =>
    refine (ih hs).append fun target htarget => ⟨name, signature, ?_, ?_⟩
    · rw [harguments.emits.eq]
      exact hfind
    · simpa using (List.mem_singleton.1 htarget).symm
  | assign _ _ _ ih =>
    refine (ih hs).quiet fun ref hmem => ?_
    rcases List.mem_append.1 hmem with hmem | hmem
    · exact call_notMem_coercion hmem
    · exact Variable.call_notMem_store _ _ hmem
  | update _ _ hcode _ ih =>
    refine (ih (hs.quiet (Variable.call_notMem_load _))).quiet fun ref hmem => ?_
    rcases List.mem_append.1 hmem with hmem | hmem
    · rcases List.mem_append.1 hmem with hmem | hmem
      · exact hcode.call_notMem _ hmem
      · exact call_notMem_coercion hmem
    · exact Variable.call_notMem_store _ _ hmem
  | assignThrough _ _ _ _ iha ihv =>
    refine (ihv (iha hs)).quiet fun ref hmem => ?_
    rcases List.mem_append.1 hmem with hmem | hmem
    · exact call_notMem_coercion hmem
    · simp at hmem
  | updateThrough _ _ _ hcode _ hw iha ihv =>
    subst hw
    have hv := ihv ((iha hs).quiet (by simp))
    refine (hv.quiet hcode.call_notMem).quiet fun ref hmem => ?_
    rcases List.mem_append.1 hmem with hmem | hmem
    · exact call_notMem_coercion hmem
    · simp at hmem
  | subscript _ _ hcode _ iha ihi => exact (ihi (iha hs)).quiet hcode.call_notMem
  | dereference _ _ ih => exact ih hs
  | noArguments => exact hs
  | argument _ _ _ ihe ih => exact ih ((ihe hs).quiet fun _ => call_notMem_coercion)

theorem Expression.EffectCode.callsKnown {s t : Scope} {e : Option Expression}
    (h : EffectCode s e t) (hs : s.CallsKnown) : t.CallsKnown := by
  cases h with
  | none => exact hs
  | some he =>
    refine (he.callsKnown hs).quiet ?_
    split <;> simp

theorem Expression.TestCode.callsKnown {s t : Scope} {e : Option Expression} {label : Label}
    (h : TestCode s e label t) (hs : s.CallsKnown) : t.CallsKnown := by
  cases h with
  | none => exact hs
  | some he => exact (he.callsKnown hs).quiet (by simp)

theorem LocalDeclaration.Code.callsKnown {s t : Scope} {d : LocalDeclaration} (h : Code s d t)
    (hs : s.CallsKnown) : t.CallsKnown := by
  cases h with
  | plain => exact hs
  | initialized _ he =>
    rename_i u _ _ target _ _ _ _
    have hu : (u.declareVariable d.name d.type target).CallsKnown := he.callsKnown hs
    refine hu.quiet fun ref hmem => ?_
    rcases List.mem_append.1 hmem with hmem | hmem
    · exact call_notMem_coercion hmem
    · simp at hmem

theorem LocalDeclaration.ListCode.callsKnown {s t : Scope} {ds : List LocalDeclaration}
    (h : ListCode s ds t) (hs : s.CallsKnown) : t.CallsKnown := by
  induction h with
  | nil => exact hs
  | cons hd _ ih => exact ih (hd.callsKnown hs)

/-- The calls of a body are known if those before it are. -/
theorem Body.Code.callsKnown {s t : Scope} {bs : List Body} (h : Code s bs t)
    (hs : s.CallsKnown) : t.CallsKnown := by
  -- Opening and closing blocks and loops and handing out labels change nothing that matters here.
  induction h with
  | nil | empty => exact hs
  | cons _ _ ih ih' => exact ih' (ih hs)
  | block _ ih => exact ih hs
  | expression he => exact he.callsKnown hs
  | declare hd => exact hd.callsKnown hs
  | @conditional s _ _ _ _ _ hc _ hm ih =>
    have hreserve : (s.reserve 1).CallsKnown := hs
    exact (ih (hc.callsKnown hreserve)).binds hm
  | @choice s _ v _ _ _ _ _ _ hc _ hm _ ht ihthen ihelse =>
    have hreserve : (s.reserve 1).CallsKnown := hs
    have hv : (v.reserve 1).CallsKnown := ihthen (hc.callsKnown hreserve)
    refine (ihelse ((hv.quiet ?_).binds hm)).binds ht
    split <;> simp
  | @whileLoop s _ u v _ _ _ ha hc _ ht ih =>
    have hreserve : (s.reserve 2).CallsKnown := hs
    have hu := hc.callsKnown (hreserve.binds ha)
    have hv : v.closeLoop.CallsKnown := ih hu
    exact (hv.quiet (by simp)).binds ht
  | @doWhileLoop s a v _ _ _ _ _ _ ha _ hw hx _ ht ih =>
    have hreserve : (s.reserve 3).CallsKnown := hs
    have ha : a.CallsKnown := hreserve.binds ha
    have hv : v.closeLoop.CallsKnown := ih ha
    exact ((hx.callsKnown (hv.binds hw)).quiet (by simp)).binds ht
  | @forLoop s b _ _ v _ _ t _ _ _ _ _ ha hc _ hw hu ht ihstart ihbody =>
    have hreserve : (b.reserve 3).CallsKnown := ihstart hs
    have hv : v.closeLoop.CallsKnown := ihbody (hc.callsKnown (hreserve.binds ha))
    have ht : t.CallsKnown := ((hu.callsKnown (hv.binds hw)).quiet (by simp)).binds ht
    exact ht
  | exitLoop | nextRound | ret => exact hs.quiet (by simp)
  | retValue _ he =>
    refine (he.callsKnown hs).quiet fun ref hmem => ?_
    rcases List.mem_append.1 hmem with hmem | hmem
    · exact call_notMem_coercion hmem
    · simp at hmem

namespace FunctionUnit

theorem call_notMem_epilogue (u : FunctionUnit) (ref : MethodRef) :
    Instruction.call ref ∉ u.epilogue := by
  unfold epilogue
  split
  · simp
  · split
    · simp
    · split <;> simp

variable {u : FunctionUnit} {signature : FunctionSignature} {functions : FunctionTable} {m : Method}

/-- Every call in the code of a function names the method of a function that its name referred to. -/
theorem Code.callsKnown (h : u.Code signature functions m) {target : MethodRef}
    (htarget : Instruction.call target ∈ m.body.instructions) :
    ∃ name callee, (Scope.begin signature functions).findFunction? name = some callee ∧
      callee.method = target := by
  cases h with
  | @mk s t hp hb _ =>
    have hs := hp.callsKnown (Scope.callsKnown_begin signature functions)
    have ht : (t.append [] u.epilogue).CallsKnown :=
      (hb.callsKnown hs).quiet u.call_notMem_epilogue
    obtain ⟨name, callee, hfind, hmethod⟩ := ht target htarget
    refine ⟨name, callee, ?_, hmethod⟩
    have hfunctions : t.functions = functions ∧ t.signature = signature := by
      rw [hb.grows.eq, hp.parameterizes.eq]
      exact ⟨rfl, rfl⟩
    unfold Scope.findFunction? at hfind ⊢
    simp only [Scope.append, hfunctions.1, hfunctions.2] at hfind
    exact hfind

end FunctionUnit

/-! ## References -/

theorem Scope.BindsParameters.types {s t : Scope} {ps : List Parameter}
    (h : s.BindsParameters ps t) : ∃ types, ps.mapM (·.type.target) = .ok types ∧
      t.assembler.method.parameters.map (·.type) =
        s.assembler.method.parameters.map (·.type) ++ types := by
  induction h with
  | nil => exact ⟨[], rfl, (List.append_nil _).symm⟩
  | @cons s _ p ps target htarget _ _ ih =>
    obtain ⟨types, hps, htypes⟩ := ih
    refine ⟨target :: types, ?_, ?_⟩
    · rw [List.mapM_cons, htarget, hps]
      rfl
    · rw [htypes]
      simp [pushParameter, Assembler.pushParameter]

namespace FunctionUnit

variable {u : FunctionUnit} {signature : FunctionSignature} {functions : FunctionTable} {m : Method}

theorem Code.parameterTypes (h : u.Code signature functions m) :
    u.parameterList.mapM (·.type.target) = .ok (m.parameters.map (·.type)) := by
  cases h with
  | @mk s t hp hb _ =>
    obtain ⟨types, htypes, hs⟩ := hp.types
    have ht : t.assembler.method.parameters = s.assembler.method.parameters :=
      hb.grows.method.parameters
    show _ = Except.ok (t.assembler.method.parameters.map (·.type))
    rw [htypes, ht, hs]
    rfl

theorem mapM_represent {name : String} {location : Location} : ∀ {ps : List Parameter}
    {types : List TargetType}, ps.mapM (·.type.target) = .ok types →
      (ps.map (·.type)).mapM (fun type => type.represent name location) = .ok types
  | [], types, h => by
    cases h
    rfl
  | p :: ps, types, h => by
    rw [List.mapM_cons] at h
    obtain ⟨target, htarget, h⟩ := Except.bind_eq_ok.1 h
    obtain ⟨rest, hrest, h⟩ := Except.bind_eq_ok.1 h
    obtain rfl := Except.pure_eq_ok.1 h
    rw [List.map_cons, List.mapM_cons, mapM_represent hrest]
    unfold CType.represent
    rw [htarget]
    rfl

end FunctionUnit

/-- The name under which a function is called is the reference of its method. -/
theorem CompiledFunction.ref_method (f : CompiledFunction) :
    f.method.ref = f.signature.method := by
  have hparameters := f.code.parameterTypes
  obtain ⟨types, htypes, hsignature⟩ := Except.bind_eq_ok.1 f.declared
  have hknown : f.unit.parameterTypes.getD [] = f.unit.parameterList.map (·.type) := by
    unfold FunctionUnit.parameterTypes FunctionUnit.parameterList
    cases f.unit.parameters <;> rfl
  rw [hknown, FunctionUnit.mapM_represent hparameters] at htypes
  cases htypes
  have hmethod := congrArg (·.method) (Except.pure_eq_ok.1 hsignature)
  have hname : f.method.name = f.unit.name := f.method_name
  have hreturn : f.method.returnType = f.returnType :=
    f.code.returnType.trans (congrArg (·.returnType) hmethod.symm)
  unfold Method.ref
  rw [← hmethod, hname, hreturn]

end ManagedC
