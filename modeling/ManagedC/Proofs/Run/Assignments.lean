import ManagedC.Proofs.Meaning.Variables
import ManagedC.Proofs.Returns.Code
import ManagedC.Proofs.Run.Cells
import ManagedC.Proofs.Stack.Frames

/-!
# What an assignment leaves and what it stores

The code of an assignment to a variable copies the value that it has converted and then stores the copy,
which the variable cuts down to its type; the value that is left is not cut down. The code of an assignment
through an address keeps the value in a temporary of the type of the target, which cuts it down, and leaves
that; what it stores is cut down by native memory to the same type, but by an array to the type of its
elements. Main statement: `TranslationUnit.compile_assigns`.
-/

namespace ManagedC

open Activation

/-! ## Calls with all of their variables -/

/-- There is a value for each parameter and each local variable. -/
structure Activation.Sized (a : Activation) : Prop where
  arguments : a.arguments.size = a.method.parameters.length
  locals : a.locals.size = a.method.locals.size

namespace Activation

variable {a b c : Activation} {s t u : Store} {i : Instruction} {code : List Instruction} {slot : Slot}
  {target : TargetType}

theorem Sized.same (h : a.Sized) (hab : a.Same b) : b.Sized := by
  constructor
  · rw [hab.arguments, hab.method, h.arguments]
  · rw [hab.locals, hab.method, h.locals]

theorem ofVariables_sized : OfVariables Sized := by
  intro a b hmethod harguments hlocals h
  constructor
  · rw [harguments, hmethod, h.arguments]
  · rw [hlocals, hmethod, h.locals]

theorem Sized.isSome_kept? (h : a.Sized) (hslot : a.method.Declares slot target) :
    (a.kept? slot).isSome := by
  cases hslot with
  | @parameter index _ hp =>
    have hlt : index.toNat < a.arguments.size := by
      rw [h.arguments]
      exact (List.getElem?_eq_some_iff.1 hp).1
    exact Option.isSome_of_eq_some (Array.getElem?_eq_getElem hlt)
  | @«local» index _ hv =>
    have hlt : index.toNat < a.locals.size := by
      rw [h.locals]
      exact (Array.getElem?_eq_some_iff.1 hv).1
    exact Option.isSome_of_eq_some (Array.getElem?_eq_getElem hlt)

/-- All calls of a run have all of their variables. -/
theorem sized_of_leads {program : Module} {limits : Limits} {host : Method} {arguments : List Value}
    {depth maxDepth steps : Nat} {r : Run} (henter : enter host arguments depth maxDepth = .ok a)
    (h : Run.Leads program limits ⟨s, steps, a, []⟩ r) : ∀ b ∈ r.current :: r.callers, b.Sized := by
  obtain ⟨hlength, -, regions, -, rfl⟩ := enter_eq_ok.1 henter
  refine h.keeps (Q := fun r => ∀ b ∈ r.current :: r.callers, b.Sized) ?_ ?_
  · intro r r' _ hr hstep
    refine hstep.forall_calls ofVariables_sized (fun i b t hexec ha => ha.same hexec.same) ?_ hr
    intro ref m regions _ _ hlength
    exact ⟨by simpa using hlength, by simp⟩
  · intro b hb
    obtain rfl := List.mem_singleton.1 hb
    exact ⟨by simpa using hlength, by simp⟩

/-- An instruction does one thing. -/
theorem Executes.unique (h : a.Executes s i b t) (h' : a.Executes s i c u) : c = b ∧ u = t := by
  have heq : (Except.ok b, t) = (Except.ok c, u) :=
    (yields_of_executes h).symm.trans (yields_of_executes h')
  cases heq
  exact ⟨rfl, rfl⟩

/-- Code that is gone through does what it is known to do. -/
theorem Performs.of_follows (h : a.Performs s code c u) (h' : a.Follows s code b) : c = b ∧ u = s := by
  induction h' with
  | nil =>
    cases h
    exact ⟨rfl, rfl⟩
  | cons _ hexec _ _ ih =>
    cases h with
    | cons hexec' hrest =>
      obtain ⟨rfl, rfl⟩ := hexec.unique hexec'
      exact ih hrest

end Activation

/-! ## Names and what they stand for -/

/-- Every name stands for a slot of the method that has the type of the variable. -/
def Scope.Declares (M : Method) (s : Scope) : Prop :=
  ∀ p ∈ s.names, ∃ target, p.2.type.target = .ok target ∧ M.Declares p.2.slot target

namespace Scope

variable {s t : Scope} {ps : List Parameter} {M : Method}

/-- The names of bound parameters stand for slots of their types. -/
theorem BindsParameters.declares (h : s.BindsParameters ps t)
    (hM : M.parameters = t.assembler.method.parameters)
    (hlimit : t.assembler.method.parameters.length ≤ 2 ^ 16)
    (hs : ∀ q ∈ s.parameters, ∃ target, q.2.type.target = .ok target ∧ M.Declares q.2.slot target) :
    ∀ q ∈ t.parameters, ∃ target, q.2.type.target = .ok target ∧ M.Declares q.2.slot target := by
  induction h with
  | nil => exact hs
  | @cons s t p ps target htarget _ hrest ih =>
    refine ih hM hlimit ?_
    intro q hq
    cases hname : p.name with
    | none =>
      simp only [pushParameter, hname] at hq
      exact hs q hq
    | some name =>
      simp only [pushParameter, hname] at hq
      rcases List.mem_cons.1 hq with rfl | hq
      · obtain ⟨more, hmore⟩ := hrest.prefix_parameters
        have hlength := hrest.parameterizes.length
        rw [length_pushParameter] at hlength
        have hindex : (UInt16.ofNat s.assembler.method.parameters.length).toNat =
            s.assembler.method.parameters.length :=
          UInt16.toNat_ofNat_of_lt' (show _ < 2 ^ 16 by omega)
        refine ⟨target, htarget, @Method.Declares.parameter _ _ ⟨p.name, target⟩ ?_⟩
        rw [hM, ← hmore, hindex]
        simp [pushParameter, Assembler.pushParameter]
      · exact hs q hq

/-- A declared variable stands for a slot of its type. -/
theorem Declares.declareVariable (h : s.Declares M) {name : String} {type : CType} {target : TargetType}
    (hM : (s.declareVariable name type target).assembler.method.Extends M)
    (htarget : type.target = .ok target) (haddressable : M.Addressable) :
    (s.declareVariable name type target).Declares M := by
  have hlast : (s.declareVariable name type target).assembler.method.locals[
      s.assembler.method.locals.size]? = some ⟨some name, target, false⟩ := by
    simp [Scope.declareVariable, Assembler.pushLocal]
  have hlocal := hM.variableAt hlast
  have hlt := (Array.getElem?_eq_some_iff.1 hlocal).1
  have hslot : s.nextSlot.toNat = s.assembler.method.locals.size :=
    UInt16.toNat_ofNat_of_lt' (Nat.lt_of_lt_of_le hlt haddressable.locals)
  rw [← hslot] at hlocal
  intro p hp
  rw [names_declareVariable] at hp
  rcases List.mem_cons.1 hp with rfl | hp
  · exact ⟨target, htarget, @Method.Declares.local _ _ ⟨some name, target, false⟩ hlocal rfl⟩
  · exact h p hp

/-- A temporary has the next slot. -/
theorem temporaryAt {stored : TargetType} {code : List Instruction}
    (hM : (s.append [stored] code).assembler.method.Extends M) (haddressable : M.locals.size ≤ 2 ^ 16) :
    M.locals[s.nextSlot.toNat]? = some ⟨none, stored, false⟩ := by
  have hlast : (s.append [stored] code).assembler.method.locals[s.assembler.method.locals.size]? =
      some ⟨none, stored, false⟩ := by
    simp [append]
  have hlocal := hM.variableAt hlast
  have hlt := (Array.getElem?_eq_some_iff.1 hlocal).1
  have hslot : s.nextSlot.toNat = s.assembler.method.locals.size :=
    UInt16.toNat_ofNat_of_lt' (Nat.lt_of_lt_of_le hlt haddressable)
  rwa [← hslot] at hlocal

theorem declares_temporary {stored : TargetType} {code : List Instruction}
    (hM : (s.append [stored] code).assembler.method.Extends M) (haddressable : M.locals.size ≤ 2 ^ 16) :
    M.Declares (.local s.nextSlot) stored :=
  @Method.Declares.local _ _ ⟨none, stored, false⟩ (temporaryAt hM haddressable) rfl

end Scope

namespace CompiledFunction.Visits

variable {program : Module} {f : CompiledFunction} {s : Scope} {M : Method}

/-- Wherever the compilation comes, names stand for what the finished method and program have. -/
theorem fits (h : f.Visits s) (hM : s.assembler.method.Extends M)
    (hparameters : ∀ p ∈ f.unit.parameterList, p.type.isVoid = false)
    (hself : f.signature.Fits program)
    (hfunctions : ∀ e ∈ f.functions.entries, e.signature.Fits program) : s.Fits program M := by
  induction h with
  | start hs => exact f.fits_start hs hM hparameters hself hfunctions
  | emit _ he ih => exact (ih (he.method.trans hM)).emits he
  | declare _ hv _ ih =>
    exact (ih ((Scope.grows_declareVariable _ _ _ _).method.trans hM)).declareVariable hM hv
  | openBlock _ ih => exact (ih hM).openBlock
  | closeBlock _ ih => exact (ih hM).closeBlock
  | openLoop _ ih => exact (ih hM).openLoop
  | closeLoop _ ih => exact (ih hM).closeLoop

/-- Wherever the compilation comes, names stand for slots of the types of the variables. -/
theorem declares (h : f.Visits s) (hM : s.assembler.method.Extends M) (haddressable : M.Addressable) :
    s.Declares M := by
  induction h with
  | start hs =>
    intro p hp
    rw [hs.begins.2.2.1] at hp
    exact hs.declares hM.parameters (hM.parameters ▸ haddressable.parameters) (by simp [Scope.begin]) p hp
  | emit _ he ih =>
    intro p hp
    rw [he.names] at hp
    exact ih (he.method.trans hM) p hp
  | declare _ _ htarget ih =>
    exact (ih ((Scope.grows_declareVariable _ _ _ _).method.trans hM)).declareVariable hM htarget
      haddressable
  | openBlock _ ih | openLoop _ ih | closeLoop _ ih => exact ih hM
  | closeBlock _ ih =>
    intro p hp
    exact ih hM p ((Scope.names_closeBlock _).subset hp)

end CompiledFunction.Visits

/-! ## What is left and what is read -/

/-- What an assignment leaves on the stack, and what a read of its target yields right afterwards. -/
inductive Run.Assigns (program : Module) (s : Scope) (stored : TargetType) (r r' : Run) :
    Expression → Value → Value → Prop where
  /-- A variable is read. It has cut down what was stored, but not what was left. -/
  | variable {span : Span} {name : String} {v : Variable} {x : Value} : s.findVariable? name = some v →
    r'.current.kept? v.slot = some (x.narrow stored) →
    Assigns program s stored r r' (.identifier span name) x (x.narrow stored)
  /-- Memory is read through the address that the code of the target left. -/
  | memory {target : Expression} {element : CType} {u : Scope} {b : Activation} {t : Store}
      {address x : Value} {p : Pointer} : Emission.Code s (.address target element) u →
    r.current.Walks program u.offset r.store b t → b.pc = u.offset →
    b.stack = address :: r.current.stack → address.asPointer = .ok p →
    r'.store.heap.load p stored = .ok (x.narrow (r'.store.heap.cellType p stored)) →
    Assigns program s stored r r' target (x.narrow stored)
      (x.narrow (r'.store.heap.cellType p stored))

namespace Activation

variable {a b c : Activation} {s t u : Store} {x address : Value} {rest : List Value}
  {stored : TargetType}

/-- What is left when a value is stored in a variable, and what is in the variable then. -/
theorem Performs.assign {v : Variable} (h : a.Performs s [.dup, v.store] c u) (ha : a.stack = x :: rest)
    (hv : a.method.Declares v.slot stored) (hsized : a.Sized) :
    c.stack = x :: rest ∧ c.kept? v.slot = some (x.narrow stored) := by
  let copied : Activation := { a with stack := x :: x :: rest }.advance
  have hdup : a.Follows s [.dup] copied := .cons rfl (.dup ha) rfl .nil
  have hdeclared : copied.method.Declares v.slot stored := hv
  have hstore := follows_store rfl hdeclared s
  obtain ⟨rfl, rfl⟩ := h.of_follows (hdup.append hstore)
  refine ⟨stack_keep .., kept?_keep_self ?_⟩
  have hkept := hsized.isSome_kept? hv
  obtain ⟨⟨index⟩ | ⟨index⟩, type⟩ := v <;> exact hkept

/-- What is left when a value is stored through an address, and what is there then. -/
theorem Performs.assignThrough {slot : UInt16}
    (h : a.Performs s [.dup, .storeLocal slot, .store stored, .loadLocal slot] c u)
    (ha : a.stack = x :: address :: rest) (hslot : a.method.Declares (.local slot) stored)
    (hsized : a.Sized) : c.stack = x.narrow stored :: rest ∧
      ∃ p, address.asPointer = .ok p ∧
        u.heap.load p stored = .ok (x.narrow (u.heap.cellType p stored)) := by
  let copied : Activation := { a with stack := x :: x :: address :: rest }.advance
  have hdup : a.Follows s [.dup] copied := .cons rfl (.dup ha) rfl .nil
  have hdeclared : copied.method.Declares (⟨.local slot, default⟩ : Variable).slot stored := hslot
  have hkeep := follows_store rfl hdeclared s
  obtain ⟨b, t, hfirst, hsecond⟩ := @split _ _ _ _ [.dup, .storeLocal slot] _ h
  obtain ⟨rfl, rfl⟩ := hfirst.of_follows (hdup.append hkeep)
  cases hsecond with
  | cons hstore hload =>
    cases hstore with
    | onTop hf | onTop2 hf => cases hf
    | store hs hp hheap =>
      rw [stack_keep] at hs
      cases hs
      cases hload with
      | cons hload hnil =>
        cases hnil
        cases hload with
        | onTop hf | onTop2 hf => cases hf
        | loadLocal hv =>
          have hkept := hsized.isSome_kept? hslot
          have hvalue : _ = some (x.narrow stored) := kept?_keep_self hkept
          cases hv.symm.trans hvalue
          exact ⟨rfl, _, hp, Heap.load_store hheap⟩

/-- What an address leads to is loaded, and the address stays below it. -/
theorem Performs.copy_load (h : a.Performs s [.dup, .load stored] c u) (ha : a.stack = address :: rest) :
    ∃ x, c.stack = [x] ++ address :: rest := by
  have hdup : a.Follows s [.dup] { a with stack := address :: address :: rest }.advance :=
    .cons rfl (.dup ha) rfl .nil
  obtain ⟨b, t, hfirst, hsecond⟩ := @split _ _ _ _ [.dup] _ h
  obtain ⟨rfl, rfl⟩ := hfirst.of_follows hdup
  cases hsecond with
  | cons hload hnil =>
    cases hnil
    cases hload with
    | onTop hf | onTop2 hf => cases hf
    | @load _ _ w _ _ hs =>
      cases hs
      exact ⟨w, rfl⟩

end Activation

theorem Variable.isStraight_store (v : Variable) :
    ∀ i ∈ [Instruction.dup, v.store], i.isStraight = true := by
  obtain ⟨⟨index⟩ | ⟨index⟩, type⟩ := v <;> simp [store, Instruction.isStraight]

/-- The value of an assignment is evaluated, and combined with the operand that lies below it if there is
one: the last part of the code begins with one value on top of what was there before the operands. -/
theorem Emission.Code.performs_last {program : Module} {s t : Scope} {a c : Activation} {σ τ : Store}
    {operands base : List Value} {value : Expression} {type : CType} {ts : List TargetType}
    {before last : List Instruction} (hvalue : Code s (.value value type) t)
    (hvoid : type.isVoid = false) (hs : s.Fits program t.assembler.method)
    (hplain : ∀ i ∈ before ++ last, i.isPlain = true)
    (hM : (t.append ts (before ++ last)).assembler.method.Extends a.method) (hpc : a.pc = s.offset)
    (hwalks : a.Walks program (t.append ts (before ++ last)).offset σ c τ)
    (hc : c.pc = (t.append ts (before ++ last)).offset) (hstack : a.stack = operands ++ base)
    (hruns : a.method.Runs before (1 + operands.length) 1) (hlast : ∀ i ∈ last, i.isStraight = true) :
    ∃ d υ x, d.stack = x :: base ∧ a.Same d ∧ d.Performs υ last c τ := by
  have hle : t.offset ≤ c.pc := by
    rw [hc, Scope.offset_append]
    exact Nat.le_add_right _ _
  obtain ⟨b, ρ, hb⟩ := hvalue.frame ((Scope.emits_append _ _ hplain).extends hM) hs trivial hpc hwalks hle
  obtain ⟨top, htop, hlength⟩ := hb.stack
  rw [width_value hvoid] at hlength
  rw [hstack, ← List.append_assoc] at htop
  have hsame := hb.before.same
  have hcode := Scope.hasCode_append hM
  have hbehind := hb.behind
  rw [← hsame.method, ← hb.pc] at hcode
  rw [Scope.offset_append, ← hb.pc] at hbehind hc
  have hstraight : ∀ i ∈ before ++ last, i.isStraight = true :=
    List.forall_mem_append.2 ⟨hruns.isStraight, hlast⟩
  obtain ⟨d, υ, hfirst, hsecond⟩ := (hbehind.performs hcode hstraight hc).split
  rw [← hlength, ← List.length_append] at hruns
  obtain ⟨left, hd, hleft⟩ := hfirst.frame hruns htop
  obtain ⟨x, rfl⟩ := List.length_eq_one_iff.1 (hleft.trans hlength)
  exact ⟨d, υ, x, hd, hsame.trans hfirst.same, hsecond⟩

namespace CompiledFunction.Contains

variable {program : Module} {limits : Limits} {f : CompiledFunction} {s t : Scope} {span : Span}
  {op : Option BinaryOp} {target value : Expression} {type : CType} {r r' : Run}

/-- What an assignment leaves, and what a read of its target yields right afterwards. -/
theorem assigns (h : f.Contains s (.assignment span op target value) type t)
    (haddressable : f.method.Addressable)
    (hparameters : ∀ p ∈ f.unit.parameterList, p.type.isVoid = false)
    (hself : f.signature.Fits program)
    (hfunctions : ∀ e ∈ f.functions.entries, e.signature.Fits program)
    (hmethod : r.current.method = f.method) (hunguarded : r.current.Unguarded)
    (hsized : r.current.Sized) (hpc : r.current.pc = s.offset)
    (hinside : r.LeadsBy program limits (r.Inside t.offset) r')
    (hcallers : r'.callers.length = r.callers.length) (hend : r'.current.pc = t.offset) :
    ∃ stored left read, type.target = .ok stored ∧ r'.current.stack = left :: r.current.stack ∧
      r.Assigns program s stored r' target left read := by
  have hcode := Expression.code_compile _ h.compiles
  have hwalks := hinside.walks hunguarded hcallers
  have hM : t.assembler.method.Extends r.current.method := hmethod ▸ h.kept
  have haddressable : r.current.method.Addressable := hmethod ▸ haddressable
  have hfits : ∀ {u v : Scope}, s.Emits u → u.Emits v → u.Fits program v.assembler.method := by
    intro u v hsu huv
    exact (h.visits.fits (hsu.trans huv).method hparameters hself hfunctions).emits hsu
  have hdeclares : s.Declares r.current.method :=
    h.visits.declares (hcode.emits.extends hM) haddressable
  -- Control passes the ends of all parts of the code before it comes to the end of the assignment.
  have hpasses : ∀ {u v : Scope} {ts : List TargetType} {code : List Instruction}, u.Emits v →
      r'.current.pc = (v.append ts code).offset → u.offset ≤ r'.current.pc := by
    intro u v ts code huv hend
    have hle := huv.grows.offset_le
    rw [Scope.offset_append] at hend
    omega
  cases hcode with
  | load haddress => cases haddress
  | @assign _ u _ _ name value v valueType hv hvalue hconv =>
    obtain ⟨stored, hstored, hslot⟩ := hdeclares _ (Scope.mem_names_of_findVariable? hv)
    have hvoid := hconv.isVoid ((hfits (.refl s) (.refl s)).variableFits hv).isVoid
    obtain ⟨d, υ, x, hd, hsame, hlast⟩ := hvalue.performs_last hvoid (hfits (.refl s) hvalue.emits)
      (List.forall_mem_append.2 ⟨isPlain_coercion, v.isPlain_store⟩) hM hpc hwalks hend
      (List.nil_append _).symm (runs_coercion _ _) v.isStraight_store
    obtain ⟨hleft, hread⟩ := hlast.assign hd (hsame.method ▸ hslot) (hsized.same hsame)
    exact ⟨stored, x, _, hstored, hleft, .variable hv hread⟩
  | @update _ u _ _ name value v op valueType resultType ts code hv hvalue hoperator hconv =>
    obtain ⟨stored, hstored, hslot⟩ := hdeclares _ (Scope.mem_names_of_findVariable? hv)
    have hvoid := ((hfits (.refl s) (.refl s)).variableFits hv).isVoid
    have hplain : ∀ i ∈ code ++ coercion resultType v.type ++ [.dup, v.store], i.isPlain = true :=
      List.forall_mem_append.2 ⟨List.forall_mem_append.2 ⟨hoperator.isPlain, isPlain_coercion⟩,
        v.isPlain_store⟩
    have hload : Emission.Code s (.value (.identifier span name) v.type) (s.append [] [v.load]) :=
      .identifier hv
    have huM := (Scope.emits_append _ _ hplain).extends hM
    obtain ⟨a, ρ, ha⟩ := hload.frame (hvalue.emits.extends huM) (hfits (.refl s) hload.emits) trivial hpc
      hwalks (hpasses hvalue.emits hend)
    obtain ⟨operands, hoperands, hlength⟩ := ha.stack
    rw [Emission.width_value hvoid] at hlength
    have hra := ha.before.same
    have hruns : a.method.Runs (code ++ coercion resultType v.type) (1 + operands.length) 1 := by
      rw [hlength]
      exact (hoperator.runs (Scope.nextSlot_lt (hra.method ▸ hM))).append (runs_coercion _ _)
    obtain ⟨d, υ, x, hd, had, hlast⟩ := hvalue.performs_last
      (CType.isVoid_of_isComparable hoperator.operands.2) (hfits hload.emits hvalue.emits) hplain
      (hra.method ▸ hM) ha.pc ha.behind hend hoperands hruns v.isStraight_store
    have hsame := hra.trans had
    obtain ⟨hleft, hread⟩ := hlast.assign hd (hsame.method ▸ hslot) (hsized.same hsame)
    exact ⟨stored, x, _, hstored, hleft, .variable hv hread⟩
  | @assignThrough _ u v _ target value element valueType stored haddress hstored hvalue hconv =>
    have hplain : ∀ i ∈ coercion valueType type ++ [.dup, .storeLocal v.nextSlot, .store stored,
        .loadLocal v.nextSlot], i.isPlain = true :=
      List.forall_mem_append.2 ⟨isPlain_coercion, by simp [Instruction.isPlain]⟩
    have hvM := (Scope.emits_append _ _ hplain).extends hM
    obtain ⟨a, ρ, ha⟩ := haddress.frame (hvalue.emits.extends hvM) (hfits (.refl s) haddress.emits)
      trivial hpc hwalks (hpasses hvalue.emits hend)
    obtain ⟨first, hfirst, hlength⟩ := ha.stack
    obtain ⟨address, rfl⟩ := List.length_eq_one_iff.1 hlength
    have hra := ha.before.same
    obtain ⟨d, υ, x, hd, had, hlast⟩ := hvalue.performs_last (hconv.isVoid haddress.isVoid_address)
      (hfits haddress.emits hvalue.emits) hplain (hra.method ▸ hM) ha.pc ha.behind hend
      (hfirst.trans (List.nil_append _).symm) (runs_coercion _ _) (by simp [Instruction.isStraight])
    have hsame := hra.trans had
    obtain ⟨hleft, p, hp, hread⟩ := hlast.assignThrough hd
      (hsame.method ▸ Scope.declares_temporary hM haddressable.locals) (hsized.same hsame)
    exact ⟨stored, _, _, hstored, hleft, .memory haddress ha.before ha.pc hfirst hp hread⟩
  | @updateThrough _ u v w _ target value op element valueType resultType stored ts code haddress
      hstored hvalue hoperator hconv hw =>
    have hslot := Scope.declares_temporary hM haddressable.locals
    generalize w.nextSlot = slot at *
    subst hw
    rw [Scope.append_append, ← List.append_assoc] at hM hwalks hend
    have hplain : ∀ i ∈ code ++ coercion resultType type ++ [.dup, .storeLocal slot, .store stored,
        .loadLocal slot], i.isPlain = true :=
      List.forall_mem_append.2 ⟨List.forall_mem_append.2 ⟨hoperator.isPlain, isPlain_coercion⟩,
        by simp [Instruction.isPlain]⟩
    have hcopy : u.Emits (u.append [] [.dup, .load stored]) :=
      Scope.emits_append _ _ (by simp [Instruction.isPlain])
    have huM := hvalue.emits.extends ((Scope.emits_append _ _ hplain).extends hM)
    obtain ⟨a, ρ, ha⟩ := haddress.frame (hcopy.extends huM) (hfits (.refl s) haddress.emits) trivial hpc
      hwalks (hpasses (hcopy.trans hvalue.emits) hend)
    obtain ⟨first, hfirst, hlength⟩ := ha.stack
    obtain ⟨address, rfl⟩ := List.length_eq_one_iff.1 hlength
    have hra := ha.before.same
    have hcode := Scope.hasCode_append huM
    rw [← hra.method, ← ha.pc] at hcode
    obtain ⟨b, σ, hcopies, hb, hbehind⟩ := ha.behind.performs_first hcode
      (by simp [Instruction.isStraight]) (by
        have hle := hpasses hvalue.emits hend
        rwa [Scope.offset_append, ← ha.pc] at hle)
    obtain ⟨x, hx⟩ := hcopies.copy_load hfirst
    have hab := hra.trans hcopies.same
    have hruns : b.method.Runs (code ++ coercion resultType type) (1 + [x].length) 1 :=
      (hoperator.runs fun _ => Scope.nextSlot_lt (hab.method ▸ hM) (by simp)).append (runs_coercion _ _)
    obtain ⟨d, υ, x, hd, hbd, hlast⟩ := hvalue.performs_last
      (CType.isVoid_of_isComparable hoperator.operands.2)
      (hfits (haddress.emits.trans hcopy) hvalue.emits) hplain (hab.method ▸ hM)
      (by rw [hb, ha.pc, Scope.offset_append]) hbehind hend hx hruns
      (by simp [Instruction.isStraight])
    have hsame := hab.trans hbd
    obtain ⟨hleft, p, hp, hread⟩ := hlast.assignThrough hd (hsame.method ▸ hslot) (hsized.same hsame)
    exact ⟨stored, _, _, hstored, hleft, .memory haddress ha.before ha.pc hfirst hp hread⟩

end CompiledFunction.Contains

/-! ## Compiled programs -/

/-- A run comes from the start of a part of the code to its end, in one call. -/
structure Run.Completes (program : Module) (limits : Limits) (start stop : Nat) (r r' : Run) :
    Prop where
  start : r.current.pc = start
  inside : r.LeadsBy program limits (r.Inside stop) r'
  /-- The calls that it made have ended. -/
  callers : r'.callers.length = r.callers.length
  stop : r'.current.pc = stop

/-- Wherever an assignment in a compiled program completes, the value that it leaves and the one that a read
of its target yields right afterwards come from one value: a variable has cut down what is read and not what
is left, and for a target in memory what is left is cut down to the type of the target, and what is read to
the type that is kept there. -/
theorem TranslationUnit.compile_assigns {unit : TranslationUnit} {name : String} {m : Module}
    {units : List FunctionUnit} (hcompile : unit.compile name = .ok m)
    (hunits : unit.functions.mapM FunctionUnit.ofDefinition = .ok units)
    (hdistinct : (units.map (·.name)).Nodup)
    (hstarter : EntryPoint.starterName ∉ units.map (·.name))
    (haddressable : ∀ method ∈ m.methods, method.Addressable) :
    ∃ fs p, Program.Built name fs p ∧ p.module = m ∧ fs.map (·.unit) = units ∧
      ∀ f ∈ fs, ∀ (s t : Scope) (span : Span) (op : Option BinaryOp) (target value : Expression)
        (type : CType), f.Contains s (.assignment span op target value) type t →
      ∀ (limits : Limits) (host : Method) (arguments : List Value) (depth : Nat) (a : Activation)
        (store : Store) (steps : Nat) (r r' : Run),
        Activation.enter host arguments depth limits.depth = .ok a →
        Run.Leads m limits ⟨store, steps, a, []⟩ r → r.current.method = f.method →
        r.Completes m limits s.offset t.offset r' →
        ∃ stored left read, type.target = .ok stored ∧ r'.current.stack = left :: r.current.stack ∧
          r.Assigns m s stored r' target left read := by
  obtain ⟨fs, p, hbuilt, rfl, hfs⟩ := built_of_compile hcompile
  obtain rfl : fs.map (·.unit) = units := by
    rw [hfs] at hunits
    exact Except.ok.inj hunits
  have hu : Unambiguous fs := by
    refine ⟨by rwa [List.map_map] at hdistinct, ?_, ?_⟩
    · rintro f hf heq
      exact hstarter (by simpa using ⟨f, hf, heq⟩)
    · intro f hf
      obtain ⟨d, -, hd⟩ := Except.mem_of_mapM hfs (List.mem_map_of_mem hf)
      exact FunctionUnit.isVoid_of_ofDefinition hd
  refine ⟨fs, p, hbuilt, rfl, rfl, ?_⟩
  intro f hf s t span op target value type hcontains limits host arguments depth a store steps r r'
    henter hleads hmethod hcompletes
  have hcourse := (Run.onCourse_of_leads f.code.handlers henter hleads).current hmethod
  have hsized := sized_of_leads henter hleads r.current List.mem_cons_self
  refine hcontains.assigns (haddressable _ (hbuilt.method_mem hf)) (hu.parameters f hf)
    (hbuilt.signatureFits hu hf) ?_ hmethod ⟨hcourse.regions, hcourse.pending⟩ hsized hcompletes.start
    hcompletes.inside hcompletes.callers hcompletes.stop
  intro e he
  obtain ⟨g, hg, heq⟩ := hbuilt.signature_of_mem hf he
  exact heq ▸ hbuilt.signatureFits hu hg

/-- A program that compares the value of an assignment with its target. -/
def TranslationUnit.comparesCopy : TranslationUnit :=
  ⟨[Construct.intFunction "main" (some Construct.voidParameters)
    [Construct.declare Construct.charSpecifier 0 "c" none,
      Construct.ret (some (Construct.binary (.comparison .eq)
        (Construct.assign none (Construct.name "c") (Construct.int 300)) (Construct.name "c")))]]⟩

/-- The function of that program. -/
def FunctionUnit.comparesCopy : FunctionUnit where
  name := "main"
  returnType := .int
  parameters := some ⟨[], true, false⟩
  body := .block
    [.declare [⟨"c", .primitive .char, none, .unknown⟩],
      .ret (some (Construct.binary (.comparison .eq)
        (Construct.assign none (Construct.name "c") (Construct.int 300)) (Construct.name "c"))) .unknown]
  location := .unknown

/-- The assignment is an expression of the body. -/
theorem CompiledFunction.contains_copy {f : CompiledFunction} (h : f.unit = .comparesCopy) :
    ∃ s, s.offset = 0 ∧
      s.findVariable? "c" = some { slot := .local 0, type := .primitive .char } ∧
      f.Contains s (Construct.assign none (Construct.name "c") (Construct.int 300)) (.primitive .char)
        (s.append [] [.constInt32 300, .dup, .storeLocal 0]) := by
  let s : Scope := (Scope.begin f.signature f.functions).openBlock.declareVariable "c" (.primitive .char) .uint8
  have hvisits : f.Visits (Scope.begin f.signature f.functions) := .start (by rw [h]; exact .nil)
  have hdeclared : f.Visits s := hvisits.openBlock.declare rfl rfl
  refine ⟨s, rfl, rfl, hdeclared, rfl, ?_⟩
  have hcode : FunctionUnit.comparesCopy.Code f.signature f.functions f.method := h ▸ f.code
  generalize f.method = m at hcode
  cases hcode with
  | mk hparameters hbody =>
    cases hparameters
    cases hbody with
    | block hbody =>
      cases hbody with
      | cons hdeclare hret =>
        cases hdeclare with
        | declare hlocals =>
          cases hlocals with
          | cons hlocal hnil =>
            cases hnil
            cases hlocal with
            | initialized hinit => cases hinit
            | plain _ _ htarget =>
              cases htarget
              cases hret with
              | retValue _ hvalue =>
                cases hvalue with
                | load haddress => cases haddress
                | binary hleft hright hoperator =>
                  cases hleft with
                  | load haddress => cases haddress
                  | assignThrough haddress => cases haddress
                  | assign hv hvalue =>
                    cases hv
                    cases hvalue with
                    | longLiteral hlong => exact absurd rfl hlong
                    | load haddress => cases haddress
                    | intLiteral =>
                      refine ((hright.emits.trans ((Scope.emits_append _ _ hoperator.isPlain).trans
                        (Scope.emits_append _ [] (List.forall_mem_append.2
                          ⟨isPlain_coercion, ?_⟩)))).method).trans
                        (Scope.emits_append _ [] (FunctionUnit.isPlain_epilogue _)).method
                      simp [Instruction.isPlain]

/-- The code of that program. -/
theorem TranslationUnit.code_comparesCopy :
    ((comparesCopy.compile "copy").toOption.any fun m => m.entryMethod?.any fun entry => decide (
      (∀ method ∈ m.methods, method.Addressable) ∧ entry.parameters = [] ∧
        entry.locals = #[⟨some "c", .uint8, false⟩] ∧ entry.body.handlers = [] ∧
        entry.body.instructions =
          #[.constInt32 300, .dup, .storeLocal 0, .loadLocal 0, .compare .ceq, .ret])) = true := by
  decide +kernel

/-- The assignment of that program leaves 300, and its variable is read as 44. -/
theorem TranslationUnit.compile_comparesCopy : ∃ m entry a s r',
    comparesCopy.compile "copy" = .ok m ∧ m.entryMethod? = some entry ∧
      enter entry [] 0 10 = .ok a ∧ Run.Leads m ⟨10, 10⟩ ⟨Store.opened {}, 0, a, []⟩ r' ∧
      r'.current.stack = [.int 300] ∧
      Run.Assigns m s .uint8 ⟨Store.opened {}, 0, a, []⟩ r' (Construct.name "c") (.int 300) (.int 44) := by
  obtain ⟨m, hm, h⟩ := (Option.any_eq_true _ _).1 code_comparesCopy
  obtain ⟨entry, hentry, h⟩ := (Option.any_eq_true _ _).1 h
  obtain ⟨haddressable, hparameters, hlocals, hhandlers, hinstructions⟩ := of_decide_eq_true h
  have hcompile := Except.of_toOption hm
  have hunits : comparesCopy.functions.mapM FunctionUnit.ofDefinition = .ok [.comparesCopy] := rfl
  obtain ⟨fs, p, hbuilt, hp, hfs, hassigns⟩ :=
    compile_assigns hcompile hunits (by decide) (by decide) haddressable
  obtain ⟨f, rfl, hf⟩ := List.map_eq_singleton_iff.1 hfs
  have hmethod : entry = f.method := by
    obtain ⟨g, hg, -, ⟨hmethod, -⟩ | hs⟩ := hbuilt.entryMethod (hp ▸ hentry)
    · rw [hmethod, List.mem_singleton.1 hg]
    · have hbridge := congrArg Method.parameters (EntryPoint.starter_eq_ok hs).2
      rw [hparameters] at hbridge
      cases hbridge
  let a : Activation := ⟨entry, [], #[], #[.int 0], [], 0, []⟩
  let r₀ : Run := ⟨Store.opened {}, 0, a, []⟩
  let r₁ : Run := ⟨Store.opened {}, 1, { a with stack := [.int 300], pc := 1 }, []⟩
  let r₂ : Run := ⟨Store.opened {}, 2, { a with stack := [.int 300, .int 300], pc := 2 }, []⟩
  let r₃ : Run := ⟨Store.opened {}, 3, { a with stack := [.int 300], pc := 3, locals := #[.int 44] }, []⟩
  have henter : enter entry [] 0 10 = .ok a := by
    refine enter_eq_ok.2 ⟨by rw [hparameters]; rfl, by decide, [], by rw [hhandlers]; rfl, ?_⟩
    rw [hlocals, List.map_toArray]
    rfl
  have hdeclared : entry.locals[(0 : UInt16).toNat]? = some ⟨some "c", .uint8, false⟩ := by
    rw [hlocals]
    rfl
  have hliteral : r₀.StepsTo m ⟨10, 10⟩ (.more r₁) :=
    .executed (by decide : 0 < 10) (by rw [instruction?, hinstructions]; rfl) rfl .constInt32
  have hdup : r₁.StepsTo m ⟨10, 10⟩ (.more r₂) :=
    .executed (by decide : 1 < 10) (by rw [instruction?, hinstructions]; rfl) rfl (.dup rfl)
  have hkeep : r₂.current.Executes r₂.store (.storeLocal 0) r₃.current r₃.store := by
    refine @Executes.storeLocal r₂.current r₂.store 0 (.int 300) [.int 300] _ r₃.store rfl hdeclared ?_
    rfl
  have hstore : r₂.StepsTo m ⟨10, 10⟩ (.more r₃) :=
    .executed (by decide : 2 < 10) (by rw [instruction?, hinstructions]; rfl) rfl hkeep
  obtain ⟨s, hs, hv, hcontains⟩ := CompiledFunction.contains_copy hf
  have hoffset : (s.append [] [.constInt32 300, .dup, .storeLocal 0]).offset = 3 := by
    rw [Scope.offset_append, hs]
    rfl
  have hcompletes : r₀.Completes m ⟨10, 10⟩ s.offset
      (s.append [] [.constInt32 300, .dup, .storeLocal 0]).offset r₃ := by
    rw [hoffset, hs]
    refine ⟨rfl, .step ⟨le_rfl, fun _ => ?_⟩ hliteral.step_eq (.step ⟨le_rfl, fun _ => ?_⟩ hdup.step_eq
      (.single ⟨le_rfl, fun _ => ?_⟩ hstore)), rfl, rfl⟩
    · exact (by decide : 0 < 3)
    · exact (by decide : 1 < 3)
    · exact (by decide : 2 < 3)
  obtain ⟨stored, left, read, htarget, hstack, hread⟩ := hassigns f (List.mem_singleton_self _) _ _ _ _
    _ _ _ hcontains ⟨10, 10⟩ entry [] 0 a _ 0 r₀ r₃ henter .refl hmethod hcompletes
  cases htarget
  cases hstack
  refine ⟨m, entry, a, s, r₃, hcompile, hentry, henter, hcompletes.inside.leads, rfl, ?_⟩
  generalize hleft : Value.int 300 = left at hread
  cases hread with
  | «variable» hfound hkept =>
    subst hleft
    exact .variable hfound hkept
  | memory haddress => cases haddress

/-- How that program ends. -/
theorem TranslationUnit.runs_comparesCopy : ((comparesCopy.compile "copy").toOption.any fun m =>
    (({ program := m } : Session).runEntry []).any fun (result, _) => decide (result = .ok 0)) = true := by
  decide +kernel

/-- That program exits with 0: what the assignment leaves is not what its target has. -/
theorem TranslationUnit.runEntry_comparesCopy : ∃ m s', comparesCopy.compile "copy" = .ok m ∧
    ({ program := m } : Session).runEntry [] = some (.ok 0, s') := by
  obtain ⟨m, hm, h⟩ := (Option.any_eq_true _ _).1 runs_comparesCopy
  obtain ⟨⟨result, s'⟩, hrun, h⟩ := (Option.any_eq_true _ _).1 h
  obtain rfl := of_decide_eq_true h
  exact ⟨m, s', Except.of_toOption hm, hrun⟩

end ManagedC
