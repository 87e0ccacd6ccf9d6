import ManagedC.Proofs.Meaning.Loops

/-!
# Calls begin with their arguments and end with their results

When a call begins, the arguments are in the slots of the parameters, in the order in which the language
binds them (`Scope.BindsParameters.holds`). When its body is left, the call comes to a return with the
result of the function on the stack. Main statement: a function does what its body does
(`CompiledFunction.Realised.of_body`).
-/

namespace ManagedC

open Meaning

/-! ## Parameters -/

/-- Each name of a parameter has a slot of its own among those that are taken. -/
structure Scope.OwnParameters (s : Scope) : Prop where
  nodup : (s.parameters.map (·.2.slot)).Nodup
  /-- They are slots of parameters that there are. -/
  taken : ∀ q ∈ s.parameters, ∃ index : UInt16, q.2.slot = .parameter index ∧
    index.toNat < s.assembler.method.parameters.length

namespace Scope

variable {s t : Scope} {p : Parameter} {ps : List Parameter} {target : TargetType}
  {signature : FunctionSignature} {functions : FunctionTable}

theorem OwnParameters.push (h : s.OwnParameters) (p : Parameter) (target : TargetType)
    (hlt : s.assembler.method.parameters.length < 2 ^ 16) :
    (s.pushParameter p target).OwnParameters := by
  have hold : ∀ q ∈ s.parameters, ∃ index : UInt16, q.2.slot = .parameter index ∧
      index.toNat < (s.pushParameter p target).assembler.method.parameters.length := by
    intro q hq
    obtain ⟨index, hindex, hbelow⟩ := h.taken q hq
    exact ⟨index, hindex, by rw [length_pushParameter]; omega⟩
  cases hname : p.name with
  | none =>
    have hparameters : (s.pushParameter p target).parameters = s.parameters := by
      simp [pushParameter, hname]
    exact ⟨hparameters ▸ h.nodup, hparameters ▸ hold⟩
  | some name =>
    let index := UInt16.ofNat s.assembler.method.parameters.length
    have hparameters : (s.pushParameter p target).parameters =
        (name, ⟨.parameter index, p.type⟩) :: s.parameters := by
      simp [pushParameter, hname, index]
    have hindex : index.toNat = s.assembler.method.parameters.length := UInt16.toNat_ofNat_of_lt' hlt
    refine ⟨?_, ?_⟩
    · rw [hparameters, List.map_cons, List.nodup_cons]
      refine ⟨fun hmem => ?_, h.nodup⟩
      obtain ⟨q, hq, hslot⟩ := List.mem_map.1 hmem
      obtain ⟨_, htaken, hbelow⟩ := h.taken q hq
      cases htaken.symm.trans hslot
      omega
    · rw [hparameters]
      exact List.forall_mem_cons.2 ⟨⟨index, rfl, by rw [length_pushParameter]; omega⟩, hold⟩

namespace BindsParameters

/-- If slots have numbers of their own, so have the names of all parameters. -/
theorem ownParameters (h : s.BindsParameters ps t) (hs : s.OwnParameters)
    (hlimit : t.assembler.method.parameters.length ≤ 2 ^ 16) : t.OwnParameters := by
  induction h with
  | nil => exact hs
  | @cons s t p ps target _ _ hrest ih =>
    have hlength := hrest.parameterizes.length
    rw [length_pushParameter] at hlength
    exact ih (hs.push p target (by omega)) hlimit

/-- The arguments of a call are in the slots of the parameters. -/
theorem kept (h : s.BindsParameters ps t) {a : Activation} {f g : Frame} {ns : List Number}
    (hparameters : a.method.parameters = t.assembler.method.parameters)
    (hlimit : t.assembler.method.parameters.length ≤ 2 ^ 16) (hbind : f.bind? ps ns = some g)
    (harguments : a.arguments.toList.drop s.assembler.method.parameters.length =
      (ps.map (·.type)).zipWith CType.pass ns)
    (hs : List.Forall₂ (Cell.KeptIn a) f s.parameters) :
    List.Forall₂ (Cell.KeptIn a) g t.parameters := by
  induction h generalizing f ns with
  | nil =>
    cases ns with
    | nil =>
      cases hbind
      exact hs
    | cons => cases hbind
  | @cons s t p ps target htarget _ hrest ih =>
    cases ns with
    | nil => cases hbind
    | cons n ns =>
      unfold Frame.bind? at hbind
      obtain ⟨w, hw, hbind⟩ := Option.bind_eq_some_iff.1 hbind
      rw [Width.of?_eq_some] at hw
      rw [hw, Width.target_type] at htarget
      cases htarget
      have hlength := hrest.parameterizes.length
      rw [length_pushParameter] at hlength
      rw [List.map_cons, List.zipWith_cons_cons, hw, CType.pass_type] at harguments
      have hrestArguments : a.arguments.toList.drop
          (s.pushParameter p w.target).assembler.method.parameters.length =
            (ps.map (·.type)).zipWith CType.pass ns := by
        rw [length_pushParameter, ← List.drop_drop, harguments]
        rfl
      cases hname : p.name with
      | none =>
        rw [hname] at hbind
        refine ih hparameters hlimit hbind hrestArguments ?_
        simpa [pushParameter, hname] using hs
      | some name =>
        rw [hname] at hbind
        refine ih hparameters hlimit hbind hrestArguments ?_
        let index := UInt16.ofNat s.assembler.method.parameters.length
        have hindex : index.toNat = s.assembler.method.parameters.length :=
          UInt16.toNat_ofNat_of_lt' (show _ < 2 ^ 16 by omega)
        have hdeclared : a.method.parameters[index.toNat]? = some ⟨p.name, w.target⟩ := by
          obtain ⟨more, hmore⟩ := hrest.prefix_parameters
          rw [hparameters, ← hmore, hindex]
          simp [pushParameter, Assembler.pushParameter]
        have hkept : a.kept? (.parameter index) = some (n.convert w).toValue := by
          have hhead := congrArg List.head? harguments
          rw [List.head?_drop] at hhead
          show a.arguments[index.toNat]? = _
          rw [hindex, ← Array.getElem?_toList]
          exact hhead
        have hcell : Cell.KeptIn a (Cell.store ⟨name, w, none⟩ n)
            (name, ⟨.parameter index, p.type⟩) :=
          ⟨rfl, hw, @Method.Declares.parameter _ _ ⟨p.name, w.target⟩ hdeclared, _, hkept, by
            rintro _ ⟨⟩
            rfl⟩
        simpa [pushParameter, hname, index] using List.Forall₂.cons hcell hs

/-- The names of the parameters have slots of their own when the body of a function begins. -/
theorem sound {F : CompiledFunction} (h : BindsParameters (.begin F.signature F.functions) ps s)
    (hlimit : s.assembler.method.parameters.length ≤ 2 ^ 16) : s.Sound F := by
  obtain ⟨hsignature, hfunctions, hnames, -⟩ := h.begins
  have hown := h.ownParameters ⟨List.nodup_nil, nofun⟩ hlimit
  refine ⟨hsignature, hfunctions, hnames ▸ hown.nodup, fun q hq => ?_⟩
  rw [hnames] at hq
  obtain ⟨index, hindex, -⟩ := hown.taken q hq
  rw [hindex]
  trivial

/-- When the body of a function begins, the parameters have the arguments as their values. -/
theorem holds {F : CompiledFunction} {f : Frame} {ns : List Number}
    (h : BindsParameters (.begin F.signature F.functions) F.unit.parameterList s)
    (hM : s.assembler.method.Extends F.method) (haddressable : F.method.Addressable)
    (hbind : Frame.bind? [] F.unit.parameterList ns = some f) :
    (F.method.start ((F.unit.parameterList.map (·.type)).zipWith CType.pass ns)).At F
      (s.point f []) := by
  obtain ⟨-, -, hnames, -, hoffset, -⟩ := h.begins
  refine ⟨⟨rfl, Array.size_map, rfl, ?_⟩, hoffset.symm, rfl⟩
  show List.Forall₂ _ f s.names
  rw [hnames]
  exact h.kept hM.parameters (hM.parameters ▸ haddressable.parameters) hbind (by rfl) .nil

end BindsParameters

end Scope

/-! ## Results -/

/-- The result that the way out of a body stands for is of the type that the function is declared with. -/
theorem Meaning.Flow.gives {flow : Flow} {u : FunctionUnit} {result : Option Number}
    (h : flow.result? u = some result) : u.Gives result := by
  have hconverted : ∀ {n : Number}, (Width.of? u.returnType).map (fun w => some (n.convert w)) =
      some result → u.Gives result := by
    intro n h
    obtain ⟨w, hw, rfl⟩ := Option.map_eq_some_iff.1 h
    exact Width.of?_eq_some.1 hw
  have hvoid : (if u.returnType.isVoid then some none else none) = some result → u.Gives result := by
    intro h
    split at h
    · rename_i hvoid
      cases h
      exact hvoid
    · cases h
  cases flow with
  | normal =>
    unfold Flow.result? at h
    dsimp only at h
    split at h
    · exact hconverted h
    · exact hvoid h
  | exitLoop | nextRound => cases h
  | ret value =>
    cases value with
    | none => exact hvoid h
    | some n => exact hconverted h

namespace CompiledFunction

variable {program : Module} {F : CompiledFunction} {f g : Frame} {ns : List Number} {flow : Flow}
  {result : Option Number} {t : Scope} {names : Names}

/-- The parts of the code of a function: the parameters, the body and what comes after it. -/
theorem parts (F : CompiledFunction) : ∃ s t : Scope,
    Scope.BindsParameters (.begin F.signature F.functions) F.unit.parameterList s ∧
      Body.Code s [F.unit.body] t ∧ F.method = (t.append [] F.unit.epilogue).assembler.method := by
  have hcode := F.code
  generalize F.method = m at hcode
  cases hcode with
  | mk hparameters hbody _ => exact ⟨_, _, hparameters, hbody, rfl⟩

/-- A call that comes to the end of the body comes to its return. -/
theorem returns_epilogue (hM : (t.append [] F.unit.epilogue).assembler.method.Extends F.method)
    (hreturns : F.unit.body.returns = false) (hresult : Flow.normal.result? F.unit = some result) :
    (t.point g []).Returns program F (result.map Number.toValue) := by
  have hgives := Flow.gives hresult
  intro x hx
  unfold Flow.result? at hresult
  unfold FunctionUnit.epilogue at hM
  rw [if_neg (by simp [hreturns])] at hM
  dsimp only at hresult
  split at hresult
  · rename_i hentry
    obtain ⟨w, -, rfl⟩ := Option.map_eq_some_iff.1 hresult
    have hsplit : t.append [] [.constInt32 0, .ret] =
        (t.append [] [.constInt32 0]).append [] [.ret] := by
      rw [Scope.append_append]
      rfl
    rw [if_pos hentry, hsplit] at hM
    have hzero : ((Number.literal 0).convert w).toValue = .int 0 := by cases w <;> rfl
    have hcM := (Scope.emits_single _ .ret rfl).extends hM
    have hleads : (t.point g []).Leads program F ((t.append [] [.constInt32 0]).point g [.int 0]) := by
      refine Scope.leads_append_stack hcM fun y store hy => ?_
      rw [← hy]
      exact .cons rfl .constInt32 rfl .nil
    obtain ⟨y, hxy, hy⟩ := hleads x hx
    have hstack : [Value.int 0] = [((Number.literal 0).convert w).toValue] ++ [] := by
      rw [hzero]
      rfl
    exact ⟨y, hxy, Body.Returning.of_at hy (Scope.hasCode_append hM).head hstack hgives⟩
  · rename_i hentry
    split at hresult
    · rename_i hvoid
      cases hresult
      rw [if_neg hentry, if_pos hvoid] at hM
      have hstack : ([] : List Value) = [] ++ [] := rfl
      exact ⟨x, .refl x, Body.Returning.of_at hx (Scope.hasCode_append hM).head hstack hgives⟩
    · cases hresult

/-- A function does what its body does. -/
theorem Realised.of_body (haddressable : F.method.Addressable)
    (hbind : Frame.bind? [] F.unit.parameterList ns = some f)
    (hstatement : F.unit.body.isStatement = true)
    (hreturns : flow = .normal → F.unit.body.returns = false)
    (hbody : F.unit.body.Realised program F f flow g) (hresult : flow.result? F.unit = some result) :
    F.Realised program ns result := by
  obtain ⟨s, t, hparameters, hcode, hmethod⟩ := F.parts
  have hM : (t.append [] F.unit.epilogue).assembler.method.Extends F.method := hmethod ▸ .refl _
  have htM := (Scope.emits_append t [] F.unit.isPlain_epilogue).extends hM
  have hsM := hcode.grows.extends htM
  obtain ⟨-, -, -, hloops, -, hopen⟩ := hparameters.begins
  have hs := hparameters.sound (hsM.parameters ▸ haddressable.parameters)
  have hstart := hparameters.holds hsM haddressable hbind
  obtain ⟨-, hends⟩ := hbody hcode hs htM hopen [] _ hstart
  rw [hloops] at hends
  refine ⟨?_, Flow.gives hresult⟩
  cases hends with
  | normal hcomes =>
    obtain ⟨y, hxy, hy⟩ := hcomes
    rw [← (hcode.emits _ rfl hstatement).point] at hy
    obtain ⟨z, hyz, hz⟩ := returns_epilogue hM (hreturns rfl) hresult y hy
    exact ⟨z, hxy.trans hyz, hz⟩
  | exitLoop hl | nextRound hl => cases hl
  | ret hret => exact hret result hresult

end CompiledFunction

end ManagedC
