import ManagedC.Proofs.Emit.Parameters
import ManagedC.Proofs.Emit.StarterCode
import ManagedC.Proofs.Stack.Height

/-!
# The methods of compiled programs are safe

A method is sound if control may enter it with an empty stack, and each of its handlers as well.
Names must be unambiguous: a call finds the method with a name that was added last, so two functions
of one name, or one with the name of the starter, could be mixed up. Main statement: all methods of a
compiled program with unambiguous names are sound (`Program.Built.sound`).
-/

namespace ManagedC

open Method (Safe)

/-! ## Calls -/

namespace CType

/-- Only `void` is represented as no value. -/
theorem target_eq_void {type : CType} {target : TargetType} (h : type.target = .ok target) :
    target = .void ↔ type.isVoid = true := by
  cases type with
  | primitive kind =>
    cases h
    cases kind <;> decide
  | pointer type =>
    have hp : ∃ t, target = .pointer t := by
      unfold CType.target at h
      split at h
      · rename_i heq
        cases heq
      · cases h
        exact ⟨_, rfl⟩
      · obtain ⟨t, _, rfl⟩ := Except.map_eq_ok.1 h
        exact ⟨t, rfl⟩
      · cases h
    obtain ⟨t, rfl⟩ := hp
    simp [isVoid]
  | array | struct | named => cases h

end CType

/-- Control may enter a method, and each of its handlers, with an empty stack. -/
structure Method.Sound (program : Module) (m : Method) : Prop where
  start : ∀ n, Safe program m n false 0 0
  regions : ∃ regions, m.body.handlers.mapM m.body.region? = some regions ∧
    ∀ region ∈ regions, ∀ n, Safe program m n true region.handlerStart 0

namespace CompiledFunction

/-- Calls pass as many arguments as the method has parameters. -/
theorem parameters_length (f : CompiledFunction) :
    f.method.parameters.length = (f.signature.parameters.getD []).length := by
  obtain ⟨parameters, hlen, h⟩ := f.code.extends_of_code
  rw [h.parameters, hlen, (FunctionUnit.signature_eq_ok f.declared).2.2.1]
  unfold FunctionUnit.parameterList FunctionUnit.parameterTypes
  cases f.unit.parameters <;> simp

theorem parameterTypes_length (f : CompiledFunction) :
    f.signature.method.parameterTypes.length = f.method.parameters.length := by
  have hdeclared := f.declared
  obtain ⟨types, htypes, h⟩ := Except.bind_eq_ok.1 hdeclared
  rw [f.parameters_length, ← Except.pure_eq_ok.1 h]
  exact Except.length_mapM htypes

/-- The type of the result on the target machine is that of the type that is declared. -/
theorem target_returnType (f : CompiledFunction) : f.unit.returnType.target = .ok f.returnType := by
  have h := f.returns
  unfold FunctionUnit.targetReturn at h
  split at h
  · cases h
  · exact Except.mapError_eq_ok.1 h

/-- Calls expect a value where the method returns one. -/
theorem results_method (f : CompiledFunction) :
    f.method.results = f.signature.returnType.width := by
  obtain ⟨-, hreturn, -, -, hmethod⟩ := FunctionUnit.signature_eq_ok f.declared
  have hvoid := CType.target_eq_void f.target_returnType
  unfold Method.results CType.width
  rw [f.code.returnType, hmethod, hreturn]
  by_cases h : f.returnType = .void
  · rw [if_pos h, if_pos (hvoid.1 h)]
  · rw [if_neg h, if_neg (mt hvoid.2 h)]

theorem parameters_isVoid {f : CompiledFunction}
    (h : ∀ p ∈ f.unit.parameterList, p.type.isVoid = false) :
    ∀ type ∈ f.signature.parameters.getD [], type.isVoid = false := by
  intro type htype
  rw [(FunctionUnit.signature_eq_ok f.declared).2.2.1] at htype
  unfold FunctionUnit.parameterTypes at htype
  unfold FunctionUnit.parameterList at h
  cases hp : f.unit.parameters with
  | none => simp [hp] at htype
  | some info =>
    rw [hp] at htype h
    obtain ⟨p, hp, rfl⟩ := List.mem_map.1 htype
    exact h p hp

end CompiledFunction

/-- No two functions have one name, and none has the name of the starter. -/
structure Unambiguous (fs : List CompiledFunction) : Prop where
  nodup : (fs.map (·.unit.name)).Nodup
  /-- The name of the starter is not one of them. -/
  starter : ∀ f ∈ fs, f.unit.name ≠ EntryPoint.starterName
  /-- No parameter is without values. -/
  parameters : ∀ f ∈ fs, ∀ p ∈ f.unit.parameterList, p.type.isVoid = false

namespace Program.Built

variable {name : String} {fs : List CompiledFunction} {p : Program}

/-- A call finds the method of the function that it names, or the starter if the function has its name. -/
theorem findMethod_or_bridge (h : Built name fs p) (hnodup : (fs.map (·.unit.name)).Nodup)
    {f : CompiledFunction} (hf : f ∈ fs) : p.module.findMethod? f.unit.name = some f.method ∨
      f.unit.name = EntryPoint.starterName ∧
        ∃ entry, p.module.findMethod? f.unit.name = some (EntryPoint.bridge entry) := by
  cases hfind : p.module.findMethod? f.unit.name with
  | none =>
    have hnone := List.find?_eq_none.1 hfind f.method (by simpa using h.method_mem hf)
    simp [f.method_name] at hnone
  | some m =>
    have hname : m.name = f.unit.name := by simpa using List.find?_some hfind
    have hmem : m ∈ p.module.methods := by simpa using List.mem_of_find?_eq_some hfind
    rcases h.mem_methods hmem with ⟨g, hg, rfl⟩ | ⟨g, hg, -, hs⟩
    · rw [g.method_name] at hname
      rw [List.inj_on_of_nodup_map hnodup hg hf hname]
      exact .inl rfl
    · obtain ⟨-, rfl⟩ := EntryPoint.starter_eq_ok hs
      exact .inr ⟨hname.symm, _, rfl⟩

/-- A call finds the method of the function that it names. -/
theorem findMethod (h : Built name fs p) (hu : Unambiguous fs) {f : CompiledFunction}
    (hf : f ∈ fs) : p.module.findMethod? f.unit.name = some f.method := by
  rcases h.findMethod_or_bridge hu.nodup hf with hfind | ⟨hname, -⟩
  · exact hfind
  · exact absurd hname (hu.starter f hf)

/-- A function can be called in the way its signature says. -/
theorem signatureFits (h : Built name fs p) (hu : Unambiguous fs) {f : CompiledFunction}
    (hf : f ∈ fs) : f.signature.Fits p.module := by
  refine ⟨⟨f.method, ?_, f.parameters_length, f.results_method⟩,
    f.parameters_isVoid (hu.parameters f hf)⟩
  rw [f.ref_name]
  exact h.findMethod hu hf

end Program.Built

/-! ## Functions -/

namespace Scope

/-- Bound parameters stand for slots that there are, and have values. -/
theorem BindsParameters.fit {s t : Scope} {ps : List Parameter} (h : s.BindsParameters ps t)
    (hps : ∀ p ∈ ps, p.type.isVoid = false)
    (hs : ∀ q ∈ s.parameters, ∃ slot : UInt16, q.2.slot = .parameter slot ∧
      slot.toNat < s.assembler.method.parameters.length ∧ q.2.type.isVoid = false) :
    ∀ q ∈ t.parameters, ∃ slot : UInt16, q.2.slot = .parameter slot ∧
      slot.toNat < t.assembler.method.parameters.length ∧ q.2.type.isVoid = false := by
  induction h with
  | nil => exact hs
  | @cons s t p ps target _ _ _ ih =>
    obtain ⟨hp, hps⟩ := List.forall_mem_cons.1 hps
    refine ih hps fun q hq => ?_
    have hlength : (s.pushParameter p target).assembler.method.parameters.length =
        s.assembler.method.parameters.length + 1 := by
      simp [pushParameter, Assembler.pushParameter]
    have hold : ∀ q ∈ s.parameters, ∃ slot : UInt16, q.2.slot = .parameter slot ∧
        slot.toNat < (s.pushParameter p target).assembler.method.parameters.length ∧
        q.2.type.isVoid = false := by
      intro q hq
      obtain ⟨slot, hslot, hlt, hv⟩ := hs q hq
      exact ⟨slot, hslot, by omega, hv⟩
    cases hname : p.name with
    | none =>
      simp only [pushParameter, hname] at hq
      exact hold q hq
    | some name =>
      simp only [pushParameter, hname] at hq
      rcases List.mem_cons.1 hq with rfl | hq
      · refine ⟨_, rfl, ?_, hp⟩
        rw [hlength, UInt16.toNat_ofNat']
        have := Nat.mod_le s.assembler.method.parameters.length (2 ^ 16)
        omega
      · exact hold q hq

end Scope

namespace CompiledFunction

variable {program : Module}

/-- After the body control may go on with the instructions that are added to it. -/
theorem safe_epilogue {u : FunctionUnit} {t : Scope} {M : Method} {n : Nat}
    (hM : M = (t.append [] u.epilogue).assembler.method) (hname : M.name = u.name)
    (hstarter : u.name ≠ EntryPoint.starterName) (hresults : M.results = u.returnType.width)
    (hreturns : u.body.returns = false) : Safe program M n false t.offset 0 := by
  have hextends : (t.append [] u.epilogue).assembler.method.Extends M := hM ▸ .refl _
  have hcode := Scope.hasCode_append hextends
  have hwidth : u.returnType.width ≤ 1 := by
    unfold CType.width
    split <;> omega
  cases n with
  | zero => exact .zero
  | succ n =>
    unfold FunctionUnit.epilogue at hcode hM
    rw [if_neg (by simp [hreturns])] at hcode hM
    by_cases he : u.isEntry = true
    · rw [if_pos he] at hcode
      have hret : Safe program M (n + 1) false (t.offset + 1) 1 :=
        .ret hcode.tail.head (hresults ▸ hwidth)
      exact .straight hcode.head rfl trivial (Nat.zero_le 0) hret.pred
    rw [if_neg he] at hcode hM
    by_cases hv : u.returnType.isVoid = true
    · rw [if_pos hv] at hcode
      exact .ret hcode.head (by simp [hresults, CType.width_of_isVoid hv])
    · rw [if_neg hv, Scope.append_nil] at hM
      refine .fellOff ?_ ⟨?_, ?_, hname ▸ hstarter⟩
      · rw [hM]
        exact Array.getElem?_eq_none (Nat.le_refl _)
      · rintro hreturn
        rw [Method.results, if_pos hreturn, CType.width, if_neg hv] at hresults
        cases hresults
      · rintro hmain
        exact he (by simp [FunctionUnit.isEntry, ← hname, hmain])

/-- When the body of a function begins, names stand for what the finished method and program have. -/
theorem fits_start (f : CompiledFunction) {s : Scope} {M : Method}
    (hs : Scope.BindsParameters (.begin f.signature f.functions) f.unit.parameterList s)
    (hM : s.assembler.method.Extends M)
    (hparameters : ∀ p ∈ f.unit.parameterList, p.type.isVoid = false)
    (hself : f.signature.Fits program)
    (hfunctions : ∀ e ∈ f.functions.entries, e.signature.Fits program) : s.Fits program M := by
  have hslots := hs.fit hparameters (by simp [Scope.begin])
  have heq := hs.parameterizes.eq
  have hresults := f.results_method
  have hreturn : M.returnType = f.method.returnType := by
    rw [f.code.returnType, hM.returnType, heq]
    rfl
  rw [Method.results, ← hreturn] at hresults
  refine ⟨fun q hq => ?_, ?_, fun name called hcalled => ?_, ?_⟩
  · obtain ⟨slot, hslot, hlt, hv⟩ := hslots q hq
    rw [← hM.parameters] at hlt
    obtain ⟨_, ⟨slot', type⟩⟩ := q
    obtain rfl : slot' = .parameter slot := hslot
    exact ⟨hlt, hlt, hv⟩
  · rw [heq]
    simp [Scope.begin]
  · rw [heq] at hcalled
    unfold Scope.findFunction? at hcalled
    split at hcalled
    · cases hcalled
      exact hself
    · obtain ⟨e, he, rfl⟩ := Option.map_eq_some_iff.1 hcalled
      exact hfunctions e (List.mem_reverse.1 (List.mem_of_find?_eq_some he))
  · rw [heq]
    exact hresults

/-- The method of a function is sound if the functions that it knows can be called. -/
theorem sound (f : CompiledFunction) (hstarter : f.unit.name ≠ EntryPoint.starterName)
    (hparameters : ∀ p ∈ f.unit.parameterList, p.type.isVoid = false)
    (hself : f.signature.Fits program)
    (hfunctions : ∀ e ∈ f.functions.entries, e.signature.Fits program) :
    f.method.Sound program := by
  have hresults := f.results_method
  have hreturn := (FunctionUnit.signature_eq_ok f.declared).2.1
  have hname := f.method_name
  have hstart : ∀ {s : Scope} {M : Method},
      Scope.BindsParameters (.begin f.signature f.functions) f.unit.parameterList s →
      s.assembler.method.Extends M → s.Fits program M :=
    fun hs hM => f.fits_start hs hM hparameters hself hfunctions
  refine ⟨fun n => ?_, [], by simp [f.code.handlers], by simp⟩
  obtain ⟨unit, returnType, signature, functions, method, hreturns, hdeclared, hcode⟩ := f
  dsimp only at *
  cases hcode with
  | @mk s t hp hb hlabels =>
    have hplain := Scope.emits_append t [] unit.isPlain_epilogue
    have heq := hp.parameterizes.eq
    have hfits := hstart hp (hb.grows.extends hplain.method)
    have hcode : s.assembler.method.body.instructions = #[] := by
      rw [heq]
      rfl
    have hoffset : s.offset = 0 := by
      show s.assembler.method.body.instructions.size = 0
      rw [hcode]
      rfl
    have hbody : Safe program (t.append [] unit.epilogue).assembler.method n false s.offset 0 := by
      refine hb.safe hplain.method hfits ?_ ?_ fun _ hr => ?_
      · simp [Assembler.isTerminated, hcode]
      · rw [heq]
        intro labels hl
        cases hl
      · exact safe_epilogue rfl hname hstarter (hreturn ▸ hresults)
          (by simpa [Body.anyReturns] using hr)
    rwa [hoffset] at hbody

end CompiledFunction

/-! ## The starter -/

namespace EntryPoint

variable {program : Module}

attribute [local simp] Method.Runs Method.Provides Instruction.isStraight Instruction.takes
  Instruction.gives Helper.arity Helper.returnsValue bridge

/-- The starter calls a method with two parameters and one result. -/
theorem sound_bridge {entry : MethodRef} {m : Method}
    (hfind : program.findMethod? entry.name = some m)
    (hparameters : m.parameters.length = 2) (hresults : m.results = 1) :
    (bridge entry).Sound program := by
  have hreturn : ∀ n, Safe program (bridge entry) n false 36 0 := by
    intro n
    have hret : Safe program (bridge entry) (n + 1) false 37 1 :=
      .ret rfl (by simp [Method.results])
    have hruns : (bridge entry).Runs [.loadLocal 4] 0 1 := by simp
    exact hruns.safe (.of_drop rfl) hret.pred
  have hleave : ∀ n d, Safe program (bridge entry) n false 27 d := by
    intro n d
    have houter : Safe program (bridge entry) (n + 1) false 32 0 := .leave rfl rfl (hreturn n)
    exact (Safe.leave rfl rfl houter).pred.pred
  have hcalled : ∀ n, Safe program (bridge entry) n false 25 2 := by
    intro n
    have hruns : (bridge entry).Runs [.storeLocal 4] 1 0 := by simp
    have hstore : Safe program (bridge entry) n false 26 (0 + m.results) := by
      rw [hresults]
      exact hruns.safe (.of_drop rfl) (hleave n 0)
    have hcall := @Safe.call program (bridge entry) n false 25 _ _ _ rfl hfind hstore
    rw [hparameters] at hcall
    exact hcall.pred
  refine ⟨fun n => ?_, bridgeRegions, regions_bridge entry, ?_⟩
  · have hruns : (bridge entry).Runs ((bridge entry).body.instructions.toList.take 25) 0 2 := by
      simp
    exact hruns.safe (.of_drop rfl) (hcalled n)
  · simp only [bridgeRegions, List.forall_mem_cons, List.not_mem_nil, false_implies, implies_true,
      and_true]
    refine ⟨fun n => ?_, fun n => ?_⟩
    · have hruns : (bridge entry).Runs [.constInt32 0, .convAddress, .storeLocal 3] 0 0 := by simp
      have hend : Safe program (bridge entry) (n + 1) true 31 0 := .endFinally rfl
      exact hruns.safe (.of_drop rfl) hend.pred
    · have hruns : (bridge entry).Runs [.loadLocal 1, .callHelper .freeArgv] 0 0 := by simp
      have hend : Safe program (bridge entry) (n + 1) true 35 0 := .endFinally rfl
      exact hruns.safe (.of_drop rfl) hend.pred

end EntryPoint

/-! ## Programs -/

/-- Every method of a compiled program is sound. -/
theorem Program.Built.sound {name : String} {fs : List CompiledFunction} {p : Program}
    (h : Built name fs p) (hu : Unambiguous fs) {m : Method} (hm : m ∈ p.module.methods) :
    m.Sound p.module := by
  rcases h.mem_methods hm with ⟨f, hf, rfl⟩ | ⟨f, hf, he, hs⟩
  · refine f.sound (hu.starter f hf) (hu.parameters f hf) (h.signatureFits hu hf) fun e hmem => ?_
    obtain ⟨g, hg, heq⟩ := h.signature_of_mem hf hmem
    exact heq ▸ h.signatureFits hu hg
  · obtain ⟨hbridge, rfl⟩ := EntryPoint.starter_eq_ok hs
    unfold EntryPoint.isBridgeable at hbridge
    split at hbridge
    · rename_i count vector htypes
      simp only [Bool.and_eq_true, beq_iff_eq] at hbridge
      refine EntryPoint.sound_bridge (m := f.method) ?_ ?_ ?_
      · rw [f.ref_name]
        exact h.findMethod hu hf
      · rw [← f.parameterTypes_length, htypes]
        rfl
      · rw [Method.results, f.code.returnType, hbridge.2]
        rfl
    · cases hbridge

end ManagedC
