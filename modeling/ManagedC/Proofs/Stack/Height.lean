import ManagedC.Proofs.Emit.BodyCode
import ManagedC.Proofs.Stack.Safety

/-!
# The heights at which compiled code runs

The code of an expression leaves one value on the stack, or none if it has no value, and it is safe
to run it wherever it is safe to go on after it. The code of a statement leaves the stack as it
was. Names must stand for slots that the finished method has, and for functions that can be called
(`Scope.Fits`). Main statements: `Emission.Code.safe` for expressions and `Body.Code.safe` for
statements.
-/

namespace ManagedC

open Method (Safe)

namespace CType

/-- How many values on the stack a value of the type is. -/
def width (type : CType) : Nat := if type.isVoid then 0 else 1

theorem width_of_isVoid {type : CType} (h : type.isVoid = true) : type.width = 0 := by
  simp [width, h]

theorem width_of_not_isVoid {type : CType} (h : type.isVoid = false) : type.width = 1 := by
  simp [width, h]

/-- A value that can be tested is a value. -/
theorem isVoid_of_isComparable {type : CType} (h : type.isComparable = true) :
    type.isVoid = false := by
  cases type with
  | primitive kind => cases kind <;> first | rfl | cases h
  | _ => rfl

theorem isComparable_of_isInteger {type : CType} (h : type.isInteger = true) :
    type.isComparable = true := by
  simp [isComparable, h]

theorem isVoid_arithmeticResult (left right : CType) :
    (arithmeticResult left right).isVoid = false := by
  unfold arithmeticResult
  split <;> rfl

/-- What can be turned into a value is a value. -/
theorem Convertible.isVoid {source target : CType} (h : source.Convertible target)
    (ht : target.isVoid = false) : source.isVoid = false := by
  rcases h with rfl | ⟨hs, -⟩
  · exact ht
  · exact isVoid_of_isComparable hs

end CType

/-- How many values the code leaves on the stack. -/
def Emission.width : Emission → Nat
  | .value _ type => type.width
  | .address _ _ => 1
  | .arguments es _ => es.length

/-- Arguments are passed for parameters that have values. -/
def Emission.Passable : Emission → Prop
  | .arguments _ types => ∀ type ∈ types, type.isVoid = false
  | _ => True

variable {program : Module} {M : Method} {s t u : Scope} {n d : Nat}

attribute [local simp] Method.Runs Method.Provides Instruction.isStraight Instruction.isPlain
  Instruction.takes Instruction.gives

theorem Emission.width_value {e : Expression} {type : CType} (h : type.isVoid = false) :
    (Emission.value e type).width = 1 := CType.width_of_not_isVoid h

/-! ## Straight-line code -/

/-- A conversion replaces the topmost value. -/
theorem runs_coercion (source target : CType) :
    M.Runs (coercion source target) (d + 1) (d + 1) := by
  unfold coercion
  repeat' split
  all_goals simp

theorem runs_comparisonCode (op : ComparisonOp) :
    M.Runs (comparisonCode op) (d + 2) (d + 1) := by
  unfold comparisonCode
  split <;> simp

theorem runs_scaling (size : Int32) : M.Runs (scaling size) (d + 1) (d + 1) := by
  unfold scaling
  split <;> simp

theorem runs_unscaling (size : Int32) : M.Runs (unscaling size) (d + 1) (d + 1) := by
  unfold unscaling
  split <;> simp

theorem runs_unification {left right : CType} {slot : UInt16}
    (hslot : unificationTemporaries left right ≠ [] → slot.toNat < M.locals.size) :
    M.Runs (unification left right slot) (d + 2) (d + 2) := by
  unfold unification unificationTemporaries at *
  cases hlong : (CType.arithmeticResult left right).isLong with
  | false => rfl
  | true =>
    cases hl : left.isLong with
    | true => cases right.isLong <;> simp
    | false =>
      have hslot := hslot (by simp [hlong, hl])
      cases right.isLong <;> simp [hslot]

/-- An operator replaces the two topmost values by one. -/
theorem OperatorCode.runs {slot : UInt16} {op : BinaryOp} {left right type : CType}
    {ts : List TargetType} {code : List Instruction}
    (h : OperatorCode slot op left right ts code type)
    (hslot : ts ≠ [] → slot.toNat < M.locals.size) : M.Runs code (d + 2) (d + 1) := by
  have hbinary : ∀ op : BinaryInstr, M.Runs [.binary op] (d + 2) (d + 1) := by simp
  cases h with
  | compareIntegers => exact (runs_unification hslot).append (runs_comparisonCode _)
  | integers => exact (runs_unification hslot).append (hbinary _)
  | comparePointers => exact runs_comparisonCode _
  | movePointer size => exact (runs_scaling (d := d + 1) size).append (hbinary _)
  | stepsFirst size type =>
    have hslot := hslot (by simp)
    have hlast : M.Runs [.loadLocal slot, .binary .add] (d + 1) (d + 1) := by simp [hslot]
    exact ⟨rfl, hslot, by simp, (runs_scaling (d := d) size).append hlast⟩
  | difference size =>
    have hlast : M.Runs [.convInt64] (d + 1) (d + 1) := by simp
    exact ⟨rfl, trivial, by simp, (runs_unscaling (d := d) size).append hlast⟩

/-- The result of an operator is a value. -/
theorem OperatorCode.isVoid {slot : UInt16} {op : BinaryOp} {left right type : CType}
    {ts : List TargetType} {code : List Instruction}
    (h : OperatorCode slot op left right ts code type) : type.isVoid = false := by
  cases h with
  | compareIntegers | comparePointers | difference => rfl
  | integers => exact CType.isVoid_arithmeticResult _ _
  | movePointer _ hl => cases left <;> first | rfl | cases hl
  | stepsFirst _ _ _ hr => cases right <;> first | rfl | cases hr

namespace Scope

@[simp] theorem offset_append (s : Scope) (ts : List TargetType) (code : List Instruction) :
    (s.append ts code).offset = s.offset + code.length := by
  simp [offset, Assembler.offset, append]

theorem hasCode_append {ts : List TargetType} {code : List Instruction}
    (hM : (s.append ts code).assembler.method.Extends M) : M.HasCode s.offset code := by
  intro k i hi
  refine hM.instruction ?_
  simp only [append, offset, Assembler.offset]
  rw [Array.getElem?_append_right (by omega)]
  simpa using hi

/-- The slot of a temporary is one of the method. -/
theorem nextSlot_lt {ts : List TargetType} {code : List Instruction}
    (hM : (s.append ts code).assembler.method.Extends M) (hts : ts ≠ []) :
    s.nextSlot.toNat < M.locals.size := by
  have hlocals := hM.locals_le
  have hpos : 0 < ts.length := List.length_pos_iff.2 hts
  simp only [append, Array.size_append, List.size_toArray, List.length_map] at hlocals
  have : s.nextSlot.toNat ≤ s.assembler.method.locals.size := by
    simp only [nextSlot, UInt16.toNat_ofNat']
    exact Nat.mod_le _ _
  omega

/-- What holds behind straight-line code holds before it. -/
theorem carry_append {P : Nat → Nat → Prop} (hP : M.Carries program P) {ts : List TargetType}
    {code : List Instruction} {k l : Nat} (hM : (s.append ts code).assembler.method.Extends M)
    (hruns : M.Runs code k l) (hafter : P (s.append ts code).offset l) : P s.offset k :=
  hruns.carry hP (hasCode_append hM) (by rwa [offset_append] at hafter)

/-- Straight-line code leads to where it is safe to go on. -/
theorem safe_append {ts : List TargetType} {code : List Instruction} {inHandler : Bool}
    {k l : Nat} (hM : (s.append ts code).assembler.method.Extends M)
    (hruns : M.Runs code k l)
    (hafter : Safe program M n inHandler (s.append ts code).offset l) :
    Safe program M n inHandler s.offset k := carry_append Safe.carries hM hruns hafter

end Scope

/-! ## Names -/

/-- The method has the slot of the variable, and the variable has values. -/
structure Variable.Fits (M : Method) (v : Variable) : Prop where
  load : M.Provides v.load
  store : M.Provides v.store
  isVoid : v.type.isVoid = false

/-- The function can be called with as many arguments as the signature says. -/
def FunctionSignature.Fits (program : Module) (signature : FunctionSignature) : Prop :=
  (∃ callee, program.findMethod? signature.method.name = some callee ∧
    callee.parameters.length = (signature.parameters.getD []).length ∧
    callee.results = signature.returnType.width) ∧
  ∀ type ∈ signature.parameters.getD [], type.isVoid = false

/-- Names stand for what the finished method and the finished program have. -/
structure Scope.Fits (program : Module) (M : Method) (s : Scope) : Prop where
  parameters : ∀ p ∈ s.parameters, p.2.Fits M
  blocks : ∀ names ∈ s.blocks, ∀ p ∈ names, p.2.Fits M
  functions : ∀ name signature, s.findFunction? name = some signature → signature.Fits program
  results : M.results = s.signature.returnType.width

/-- A name that stands for a variable is one of a parameter, or it is declared in a block. -/
theorem Scope.mem_of_findVariable? {name : String} {v : Variable}
    (h : s.findVariable? name = some v) :
    (name, v) ∈ s.parameters ∨ ∃ names ∈ s.blocks, (name, v) ∈ names := by
  have hmem : ∀ {names : Names}, names.lookup name = some v → (name, v) ∈ names := by
    intro names hl
    obtain ⟨before, after, rfl, -⟩ := List.lookup_eq_some_iff.1 hl
    exact List.mem_append_right _ List.mem_cons_self
  unfold findVariable? at h
  cases hb : s.blocks.findSome? fun names => names.lookup name with
  | some w =>
    rw [hb] at h
    obtain rfl : w = v := Option.some.inj h
    obtain ⟨names, hnames, hl⟩ := List.exists_of_findSome?_eq_some hb
    exact .inr ⟨names, hnames, hmem hl⟩
  | none =>
    rw [hb] at h
    exact .inl (hmem h)

namespace Scope.Fits

theorem emits (h : s.Fits program M) (he : s.Emits t) : t.Fits program M := by
  rw [he.eq]
  exact ⟨h.parameters, h.blocks, h.functions, h.results⟩

theorem openLoop (h : s.Fits program M) {l : LoopLabels} :
    (s.openLoop l).Fits program M := ⟨h.parameters, h.blocks, h.functions, h.results⟩

theorem closeLoop (h : s.Fits program M) : s.closeLoop.Fits program M :=
  ⟨h.parameters, h.blocks, h.functions, h.results⟩

theorem openBlock (h : s.Fits program M) : s.openBlock.Fits program M :=
  ⟨h.parameters, List.forall_mem_cons.2 ⟨by simp, h.blocks⟩, h.functions, h.results⟩

theorem closeBlock (h : s.Fits program M) : s.closeBlock.Fits program M :=
  ⟨h.parameters, fun names hn => h.blocks names (List.mem_of_mem_tail hn), h.functions, h.results⟩

theorem variableFits (h : s.Fits program M) {name : String} {v : Variable}
    (hv : s.findVariable? name = some v) : v.Fits M := by
  rcases mem_of_findVariable? hv with hp | ⟨names, hnames, hp⟩
  · exact h.parameters _ hp
  · exact h.blocks names hnames _ hp

end Scope.Fits

/-! ## Expressions -/

/-- What an address leads to has values. -/
theorem Emission.Code.isVoid_address {e : Expression} {type : CType}
    (h : Emission.Code s (.address e type) t) : type.isVoid = false := by
  cases h with
  | subscript _ _ _ hv => exact hv
  | dereference _ hv => exact hv

theorem Variable.Fits.runs_load {v : Variable} (hv : v.Fits M) : M.Runs [v.load] d (d + 1) := by
  obtain ⟨⟨slot⟩ | ⟨slot⟩, type⟩ := v
  · exact ⟨rfl, hv.load, by simp [Variable.load]⟩
  · exact ⟨rfl, hv.load, by simp [Variable.load]⟩

/-- A value is stored and stays on the stack. -/
theorem Variable.Fits.runs_store {v : Variable} (hv : v.Fits M) :
    M.Runs [.dup, v.store] (d + 1) (d + 1) := by
  obtain ⟨⟨slot⟩ | ⟨slot⟩, type⟩ := v
  · exact ⟨rfl, trivial, by simp, rfl, hv.store, by simp [Variable.store]⟩
  · exact ⟨rfl, trivial, by simp, rfl, hv.store, by simp [Variable.store]⟩

/-- A value is stored through an address and stays on the stack. -/
theorem runs_storeThrough (stored : TargetType) {slot : UInt16}
    (hslot : slot.toNat < M.locals.size) :
    M.Runs [.dup, .storeLocal slot, .store stored, .loadLocal slot] (d + 2) (d + 1) := by
  simp [hslot]

theorem Scope.Emits.extends (h : s.Emits t) (hM : t.assembler.method.Extends M) :
    s.assembler.method.Extends M := h.method.trans hM

/-- What holds behind the code of an expression with the values of the expression on the stack holds
before the code. -/
theorem Emission.Code.carry {P : Nat → Nat → Prop} (hP : M.Carries program P) {e : Emission}
    (h : e.Code s t) (hM : t.assembler.method.Extends M) (hs : s.Fits program M) (hpass : e.Passable)
    (hafter : P t.offset (d + e.width)) : P s.offset d := by
  induction h generalizing d with
  | intLiteral | longLiteral =>
    exact Scope.carry_append hP hM (l := d + 1) (by simp) hafter
  | identifier hv =>
    have hv := hs.variableFits hv
    rw [width_value hv.isVoid] at hafter
    exact Scope.carry_append hP hM hv.runs_load hafter
  | @logical s u v w t span op left right leftType rightType hl hlc hr hrc hw ht ihl ihr =>
    have hjump : u.Emits (u.append [] [.branchIf op.decisive s.nextLabel]) :=
      Scope.emits_append _ _ (by simp)
    have hwM := ht.emits.extends hM
    have hw' := (Scope.emits_append _ _ (by simp)).extends hwM
    have hvM' := hw.emits.extends hw'
    have hvM := (Scope.emits_append _ _ (by simp)).extends hvM'
    have huM' := hr.emits.extends hvM
    have hdecided : P w.offset d := by
      refine Scope.carry_append hP hwM (l := d + 1) (by simp) ?_
      rwa [← ht.offset]
    have hlabel := hw.stands hw'
    have hend := ht.stands hM
    have hright : P v.offset (d + 1) := by
      have hcode := Scope.hasCode_append hvM'
      have hlast := hP.branch hcode.tail.tail.head hend hafter
      have hconst := hP.straight hcode.tail.head rfl trivial (Nat.zero_le d) hlast
      exact hP.branchIf hcode.head hlabel hdecided hconst
    have hleft : P u.offset (d + 1) := by
      have hcode := Scope.hasCode_append huM'
      have hfits := hs.emits ((Scope.emits_reserve s 2).trans (hl.emits.trans hjump))
      have hsecond := ihr hvM hfits trivial
        (by rwa [width_value (CType.isVoid_of_isComparable hrc)])
      rw [Scope.offset_append] at hsecond
      exact hP.branchIf hcode.head hlabel hdecided hsecond
    exact ihl (hjump.extends huM') (hs.emits (Scope.emits_reserve s 2)) trivial
      (by rwa [width_value (CType.isVoid_of_isComparable hlc)])
  | binary hl hr hcode ihl ihr =>
    obtain ⟨hlc, hrc⟩ := hcode.operands
    rw [width_value hcode.isVoid] at hafter
    have hvM := (Scope.emits_append _ _ hcode.isPlain).extends hM
    have hright := Scope.carry_append hP hM (hcode.runs (Scope.nextSlot_lt hM)) hafter
    have hleft := ihr hvM (hs.emits hl.emits) trivial
      (by rwa [width_value (CType.isVoid_of_isComparable hrc)])
    exact ihl (hr.emits.extends hvM) hs trivial
      (by rwa [width_value (CType.isVoid_of_isComparable hlc)])
  | negate he hi ih | bitNot he hi ih =>
    rw [width_value (CType.isVoid_arithmeticResult _ _)] at hafter
    have hrest := Scope.carry_append hP hM (k := d + 1) (by simp) hafter
    have hvoid := CType.isVoid_of_isComparable (CType.isComparable_of_isInteger hi)
    exact ih ((Scope.emits_append _ _ (by simp)).extends hM) hs trivial (by rwa [width_value hvoid])
  | logicalNot he hc ih =>
    have hrest := Scope.carry_append hP hM (k := d + 1) (l := d + 1) (by simp) hafter
    exact ih ((Scope.emits_append _ _ (by simp)).extends hM) hs trivial
      (by rwa [width_value (CType.isVoid_of_isComparable hc)])
  | load ha _ ih =>
    rw [width_value ha.isVoid_address] at hafter
    have hrest := Scope.carry_append hP hM (k := d + 1) (by simp) hafter
    exact ih ((Scope.emits_append _ _ (by simp)).extends hM) hs trivial hrest
  | assign hv he hconv ih =>
    have hv := hs.variableFits hv
    rw [width_value hv.isVoid] at hafter
    have hrest := Scope.carry_append hP hM ((runs_coercion _ _).append hv.runs_store) hafter
    have huM := (Scope.emits_append _ _ (List.forall_mem_append.2
      ⟨isPlain_coercion, Variable.isPlain_store _⟩)).extends hM
    exact ih huM hs trivial
      (by rwa [width_value (hconv.isVoid hv.isVoid)])
  | @update s u span span' name value v op valueType type ts code hv he hcode hconv ih =>
    have hv := hs.variableFits hv
    have hload : s.Emits (s.append [] [v.load]) := Scope.emits_append _ _ v.isPlain_load
    have hplain : ∀ i ∈ code ++ coercion type v.type ++ [.dup, v.store], i.isPlain = true :=
      List.forall_mem_append.2
        ⟨List.forall_mem_append.2 ⟨hcode.isPlain, isPlain_coercion⟩, v.isPlain_store⟩
    have huM := (Scope.emits_append _ _ hplain).extends hM
    rw [width_value hv.isVoid] at hafter
    have hruns := ((hcode.runs (d := d) (Scope.nextSlot_lt hM)).append
      (runs_coercion type v.type)).append hv.runs_store
    have hrest := Scope.carry_append hP hM hruns hafter
    have hvalue := ih huM (hs.emits hload) trivial
      (by rwa [width_value (CType.isVoid_of_isComparable hcode.operands.2)])
    exact Scope.carry_append hP (he.emits.extends huM) hv.runs_load hvalue
  | @assignThrough s u v span target value element type stored ha hstored he hconv iha ihe =>
    have hplain : ∀ i ∈ coercion type element ++ [.dup, .storeLocal v.nextSlot, .store stored,
        .loadLocal v.nextSlot], i.isPlain = true :=
      List.forall_mem_append.2 ⟨isPlain_coercion, by simp⟩
    have hvM := (Scope.emits_append _ _ hplain).extends hM
    rw [width_value ha.isVoid_address] at hafter
    have hruns := (runs_coercion (M := M) (d := d + 1) type element).append
      (runs_storeThrough stored (Scope.nextSlot_lt hM (by simp)))
    have hrest := Scope.carry_append hP hM hruns hafter
    have hvalue := ihe hvM (hs.emits ha.emits) trivial
      (by rwa [width_value (hconv.isVoid ha.isVoid_address)])
    exact iha (he.emits.extends hvM) hs trivial hvalue
  | @updateThrough s u v w span target value op element valueType type stored ts code ha hstored he
      hcode hconv hw iha ihe =>
    have hload : u.Emits (u.append [] [.dup, .load stored]) := Scope.emits_append _ _ (by simp)
    have hplain : ∀ i ∈ coercion type element ++ [.dup, .storeLocal w.nextSlot, .store stored,
        .loadLocal w.nextSlot], i.isPlain = true :=
      List.forall_mem_append.2 ⟨isPlain_coercion, by simp⟩
    have hwM := (Scope.emits_append _ _ hplain).extends hM
    rw [width_value ha.isVoid_address] at hafter
    have hruns := (runs_coercion (M := M) (d := d + 1) type element).append
      (runs_storeThrough stored (Scope.nextSlot_lt hM (by simp)))
    have hrest := Scope.carry_append hP hM hruns hafter
    subst hw
    have hvM := (Scope.emits_append _ _ hcode.isPlain).extends hwM
    have hop := Scope.carry_append hP hwM (hcode.runs (d := d + 1) (Scope.nextSlot_lt hwM)) hrest
    have hvalue := ihe hvM (hs.emits (ha.emits.trans hload)) trivial
      (by rwa [width_value (CType.isVoid_of_isComparable hcode.operands.2)])
    have huM := he.emits.extends hvM
    have hfetch := Scope.carry_append hP huM (k := d + 1) (by simp) hvalue
    exact iha (hload.extends huM) hs trivial hfetch
  | call hf hcount ha ih =>
    obtain ⟨⟨callee, hcallee, hparameters, hresults⟩, hpassable⟩ := hs.functions _ _ hf
    rw [width, ← hresults, Scope.offset_append] at hafter
    have hcall := hP.call (Scope.hasCode_append hM).head hcallee hafter
    rw [hparameters, hcount] at hcall
    exact ih ((Scope.emits_append _ _ (by simp)).extends hM) hs hpassable hcall
  | @subscript s u v span array index arrayType indexType element ts code ha hi hcode hv iha ihi =>
    obtain ⟨hlc, hrc⟩ := hcode.operands
    have hvM := (Scope.emits_append _ _ hcode.isPlain).extends hM
    have hindex := Scope.carry_append hP hM (hcode.runs (d := d) (Scope.nextSlot_lt hM)) hafter
    have harray := ihi hvM (hs.emits ha.emits) trivial
      (by rwa [width_value (CType.isVoid_of_isComparable hrc)])
    exact iha (hi.emits.extends hvM) hs trivial
      (by rwa [width_value (CType.isVoid_of_isComparable hlc)])
  | dereference _ _ ih => exact ih hM hs trivial hafter
  | noArguments => exact hafter
  | @argument s u t e es type parameter types hvalue hconv hes ihe ih =>
    obtain ⟨hvoid, hpassable⟩ := List.forall_mem_cons.1 hpass
    have hcoerce : u.Emits (u.append [] (coercion type parameter)) :=
      Scope.emits_append _ _ isPlain_coercion
    have huM := hes.emits.extends hM
    have hrest := ih hM (hs.emits (hvalue.emits.trans hcoerce)) hpassable (d := d + 1)
      (by rwa [width, Nat.add_assoc, Nat.add_comm 1])
    have hconverted := Scope.carry_append hP huM (runs_coercion type parameter) hrest
    exact ihe (hcoerce.extends huM) hs trivial (by rwa [width_value (hconv.isVoid hvoid)])

/-- It is safe to run the code of an expression where it is safe to go on after it with the values of
the expression on the stack. -/
theorem Emission.Code.safe {e : Emission} (h : e.Code s t) (hM : t.assembler.method.Extends M)
    (hs : s.Fits program M) (hpass : e.Passable)
    (hafter : Safe program M n false t.offset (d + e.width)) :
    Safe program M n false s.offset d := h.carry Safe.carries hM hs hpass hafter

/-! ## Parts of statements -/

/-- An expression whose value is dropped leaves the stack as it was. -/
theorem Expression.EffectCode.safe {e : Option Expression} (h : EffectCode s e t)
    (hM : t.assembler.method.Extends M) (hs : s.Fits program M)
    (hafter : Safe program M n false t.offset d) : Safe program M n false s.offset d := by
  cases h with
  | none => exact hafter
  | @some u e type he =>
    cases hv : type.isVoid with
    | true =>
      simp only [hv, if_true, Scope.append_nil] at hM hafter
      refine he.safe hM hs trivial ?_
      rwa [Emission.width, CType.width_of_isVoid hv]
    | false =>
      simp only [hv, Bool.false_eq_true, if_false] at hM hafter
      have huM := (Scope.emits_append _ _ (by simp)).extends hM
      have hpop := Scope.safe_append hM (k := d + 1) (by simp) hafter
      exact he.safe huM hs trivial (by rwa [Emission.width_value hv])

/-- A test goes on behind it or at its label. -/
theorem Expression.TestCode.safe {e : Option Expression} {label : Label} {offset : Nat}
    (h : TestCode s e label t) (hM : t.assembler.method.Extends M) (hs : s.Fits program M)
    (hlabel : M.body.labels.offset? label = Option.some offset)
    (helse : Safe program M n false offset d) (hafter : Safe program M n false t.offset d) :
    Safe program M n false s.offset d := by
  cases h with
  | none => exact hafter
  | @some u e type _ he hc =>
    have huM := (Scope.emits_append _ _ (by simp)).extends hM
    rw [Scope.offset_append] at hafter
    have hjump := (Safe.branchIf (Scope.hasCode_append hM).head hlabel helse hafter).pred
    exact he.safe huM hs trivial
      (by rwa [Emission.width_value (CType.isVoid_of_isComparable hc)])

namespace Scope

/-- A declared variable fits. -/
theorem Fits.declareVariable (hs : s.Fits program M) {name : String} {type : CType}
    {target : TargetType}
    (hM : (s.declareVariable name type target).assembler.method.Extends M)
    (hv : type.isVoid = false) : (s.declareVariable name type target).Fits program M := by
  have hslot : s.nextSlot.toNat < M.locals.size := by
    have hlocals := hM.locals_le
    simp only [Scope.declareVariable, Assembler.pushLocal, Array.size_push] at hlocals
    have : s.nextSlot.toNat ≤ s.assembler.method.locals.size := by
      simp only [nextSlot, UInt16.toNat_ofNat']
      exact Nat.mod_le _ _
    omega
  refine ⟨hs.parameters, ?_, hs.functions, hs.results⟩
  intro names hnames p hp
  rcases List.mem_cons.1 hnames with rfl | hnames
  · rcases List.mem_cons.1 hp with rfl | hp
    · exact ⟨hslot, hslot, hv⟩
    · cases hb : s.blocks with
      | nil =>
        rw [hb] at hp
        cases hp
      | cons inner outer =>
        rw [hb] at hp
        exact hs.blocks inner (by rw [hb]; exact List.mem_cons_self) p hp
  · exact hs.blocks names (List.mem_of_mem_tail hnames) p hp

end Scope

/-- A declaration leaves the stack as it was, and what it declares fits. -/
theorem LocalDeclaration.Code.safe {declared : LocalDeclaration} (h : declared.Code s t)
    (hM : t.assembler.method.Extends M) (hs : s.Fits program M) :
    t.Fits program M ∧
      (Safe program M n false t.offset d → Safe program M n false s.offset d) := by
  cases h with
  | plain _ hv => exact ⟨hs.declareVariable hM hv, id⟩
  | initialized hinit he hconv hv ht =>
    rename_i u e type target
    have hplain : ∀ i ∈ coercion type declared.type ++ [.storeLocal u.nextSlot],
        i.isPlain = true := List.forall_mem_append.2 ⟨isPlain_coercion, by simp⟩
    have hstore := Scope.emits_append (u.declareVariable declared.name declared.type target) []
      hplain
    have hdM := hstore.extends hM
    have hfits := (hs.emits he.emits).declareVariable hdM hv
    refine ⟨hfits.emits hstore, fun hafter => ?_⟩
    have hslot : u.nextSlot.toNat < M.locals.size :=
      (hfits.blocks _ List.mem_cons_self _ List.mem_cons_self).load
    have hruns : M.Runs (coercion type declared.type ++ [.storeLocal u.nextSlot]) (d + 1) d :=
      (runs_coercion _ _).append (by simp [hslot])
    have hrest : Safe program M n false u.offset (d + 1) :=
      Scope.safe_append (s := u.declareVariable declared.name declared.type target) hM hruns hafter
    have huM := (Scope.grows_declareVariable u _ _ _).method.trans hdM
    exact he.safe huM hs trivial (by rwa [Emission.width_value (hconv.isVoid hv)])

theorem LocalDeclaration.ListCode.safe {ds : List LocalDeclaration} (h : ListCode s ds t)
    (hM : t.assembler.method.Extends M) (hs : s.Fits program M) :
    t.Fits program M ∧
      (Safe program M n false t.offset d → Safe program M n false s.offset d) := by
  induction h with
  | nil => exact ⟨hs, id⟩
  | cons hd hds ih =>
    obtain ⟨hu, hfirst⟩ := hd.safe (hds.grows.method.trans hM) hs
    obtain ⟨ht, hrest⟩ := ih hM hu
    exact ⟨ht, fun hafter => hfirst (hrest hafter)⟩

/-! ## Statements -/

namespace Scope

theorem Grows.extends (h : s.Grows t) (hM : t.assembler.method.Extends M) :
    s.assembler.method.Extends M := h.method.trans hM

/-- Where a label is bound to the next instruction control can get to it. -/
theorem Binds.isTerminated {label : Label} (h : s.Binds label t) :
    t.assembler.isTerminated = false := by
  have hbound := h.bound
  rw [← h.offset] at hbound
  obtain ⟨before, after, he, -⟩ := List.lookup_eq_some_iff.1 hbound
  have hmem : label ∈ t.assembler.method.body.labels.labelsAt t.offset := by
    unfold LabelTable.labelsAt
    refine List.mem_map.2 ⟨(label, t.offset), List.mem_filter.2 ⟨?_, by simp⟩, rfl⟩
    rw [he]
    exact List.mem_append_right _ List.mem_cons_self
  unfold Assembler.isTerminated
  rw [Bool.and_eq_false_iff]
  left
  show (t.assembler.method.body.labels.labelsAt t.offset).isEmpty = false
  cases hl : t.assembler.method.body.labels.labelsAt t.offset with
  | nil =>
    rw [hl] at hmem
    cases hmem
  | cons l ls => rfl

/-- Control can go on after straight-line code that does not end with a jump. -/
theorem isTerminated_append {ts : List TargetType} {code : List Instruction} {i : Instruction}
    (hlast : code.getLast? = some i) (hi : i.isTerminator = false) :
    (s.append ts code).assembler.isTerminated = false := by
  have hback : (s.append ts code).assembler.method.body.instructions.back? = some i := by
    simp [append, ← Array.getLast?_toList, hlast]
  unfold Assembler.isTerminated
  rw [hback, Bool.and_eq_false_iff]
  exact .inr hi

/-- It is safe to go to the labels of the open loops, for less than so many instructions. -/
def LoopsSafe (program : Module) (M : Method) (n : Nat) (s : Scope) : Prop :=
  ∀ labels ∈ s.loops, ∀ label, label = labels.exit ∨ label = labels.next →
    ∃ offset, M.body.labels.offset? label = some offset ∧
      ∀ k < n, Safe program M k false offset 0

theorem LoopsSafe.mono {k : Nat} (h : s.LoopsSafe program M n) (hk : k ≤ n) :
    s.LoopsSafe program M k := by
  intro labels hlabels label hlabel
  obtain ⟨offset, ho, hsafe⟩ := h labels hlabels label hlabel
  exact ⟨offset, ho, fun j hj => hsafe j (by omega)⟩

theorem LoopsSafe.grows (h : s.LoopsSafe program M n) (hg : s.Grows t) :
    t.LoopsSafe program M n := by
  rw [hg.eq]
  exact h

theorem LoopsSafe.openLoop (h : s.LoopsSafe program M n) {labels : LoopLabels} {exit next : Nat}
    (hexit : M.body.labels.offset? labels.exit = some exit)
    (hnext : M.body.labels.offset? labels.next = some next)
    (hsafe : ∀ k < n, Safe program M k false exit 0 ∧ Safe program M k false next 0) :
    (s.openLoop labels).LoopsSafe program M n := by
  intro ls hls label hlabel
  rcases List.mem_cons.1 hls with rfl | hls
  · rcases hlabel with rfl | rfl
    · exact ⟨exit, hexit, fun k hk => (hsafe k hk).1⟩
    · exact ⟨next, hnext, fun k hk => (hsafe k hk).2⟩
  · exact h ls hls label hlabel

end Scope

/-- A place is safe if going round from it to itself is. -/
theorem safe_of_round {pc : Nat}
    (h : ∀ k < n, Safe program M k false pc d → Safe program M (k + 1) false pc d) :
    Safe program M n false pc d := by
  induction n with
  | zero => exact .zero
  | succ n ih => exact h n (Nat.lt_succ_self n) (ih fun k hk => h k (Nat.lt_succ_of_lt hk))

/-- Only a call has no value. -/
theorem Emission.Code.isTerminated_of_isVoid {e : Expression} {type : CType}
    (h : Emission.Code s (.value e type) t) (hs : s.Fits program M) (hv : type.isVoid = true) :
    t.assembler.isTerminated = false := by
  have hvalue : type.isVoid = false → t.assembler.isTerminated = false := by simp [hv]
  cases h with
  | call => exact Scope.isTerminated_append rfl rfl
  | identifier hf | assign hf | update hf => exact hvalue (hs.variableFits hf).isVoid
  | load ha | assignThrough ha | updateThrough ha => exact hvalue ha.isVoid_address
  | negate | bitNot => exact hvalue (CType.isVoid_arithmeticResult _ _)
  | binary _ _ hcode => exact hvalue hcode.isVoid
  | intLiteral | longLiteral | logical | logicalNot => exact hvalue rfl

/-- Control can go on after an expression. -/
theorem Expression.EffectCode.isTerminated {e : Option Expression} (h : EffectCode s e t)
    (hs : s.Fits program M) (hopen : s.assembler.isTerminated = false) :
    t.assembler.isTerminated = false := by
  cases h with
  | none => exact hopen
  | @some u e type he =>
    cases hv : type.isVoid with
    | true =>
      rw [if_pos rfl, Scope.append_nil]
      exact he.isTerminated_of_isVoid hs hv
    | false => exact Scope.isTerminated_append rfl rfl

/-- Control can go on after a test. -/
theorem Expression.TestCode.isTerminated {e : Option Expression} {label : Label}
    (h : TestCode s e label t) (hopen : s.assembler.isTerminated = false) :
    t.assembler.isTerminated = false := by
  cases h with
  | none => exact hopen
  | some => exact Scope.isTerminated_append rfl rfl

/-- Control can go on after a declaration. -/
theorem LocalDeclaration.ListCode.isTerminated {ds : List LocalDeclaration} (h : ListCode s ds t)
    (hopen : s.assembler.isTerminated = false) : t.assembler.isTerminated = false := by
  induction h with
  | nil => exact hopen
  | cons hd _ ih =>
    refine ih ?_
    cases hd with
    | plain => exact hopen
    | initialized => exact Scope.isTerminated_append (List.getLast?_concat ..) rfl

namespace Body.Code

/-- Names go on to fit while bodies are compiled. -/
theorem fits {bs : List Body} (h : Body.Code s bs t) (hM : t.assembler.method.Extends M)
    (hs : s.Fits program M) : t.Fits program M := by
  induction h with
  | nil | empty => exact hs
  | cons _ hrest ih ih' => exact ih' hM (ih (hrest.grows.extends hM) hs)
  | block hb _ => exact hs.emits hb.grows.closeBlock
  | expression he => exact hs.emits he.emits
  | declare hd => exact (hd.safe (n := 0) (d := 0) hM hs).1
  | conditional hc _ hm ih =>
    have hvM := hm.emits.extends hM
    exact (ih hvM (hs.emits ((Scope.emits_reserve _ _).trans hc.emits))).emits hm.emits
  | @choice s u v w x t condition thenBranch elseBranch hc hthen hm helse ht ihthen ihelse =>
    have hjump := (Scope.emits_reserve v 1).trans v.emits_jumpOver
    have hxM := ht.emits.extends hM
    have hwM := helse.grows.extends hxM
    have hvM := (hjump.trans hm.emits).extends hwM
    have hv := ihthen hvM (hs.emits ((Scope.emits_reserve _ _).trans hc.emits))
    exact (ihelse hxM (hv.emits (hjump.trans hm.emits))).emits ht.emits
  | @whileLoop s a u v t condition body ha hc hb ht ih =>
    have hjump := @Scope.emits_append v.closeLoop [] [.branch s.nextLabel] (by simp)
    have hvM := (hjump.trans ht.emits).extends hM
    have hu := hs.emits ((Scope.emits_reserve _ _).trans (ha.emits.trans hc.emits))
    have hv := ih hvM hu.openLoop
    exact hv.closeLoop.emits (hjump.trans ht.emits)
  | @doWhileLoop s a v w x t condition body type ha hb hw hx _ ht ih =>
    have hjump := @Scope.emits_append x [] [.branchIf true s.nextLabel] (by simp)
    have hrest := hw.emits.trans (hx.emits.trans (hjump.trans ht.emits))
    have hvM := hrest.extends hM
    have hu := hs.emits ((Scope.emits_reserve _ _).trans ha.emits)
    have hv := ih hvM hu.openLoop
    exact hv.closeLoop.emits hrest
  | @forLoop s b a u v w x t start condition update body hstart ha hc hb hw hx ht ihstart ihbody =>
    have hjump := @Scope.emits_append x [] [.branch b.nextLabel] (by simp)
    have hrest := hw.emits.trans (hx.emits.trans (hjump.trans ht.emits))
    have hvM := hrest.extends hM
    have hbu := (Scope.emits_reserve b 3).trans (ha.emits.trans hc.emits)
    have hbM := hbu.extends (hb.grows.extends hvM)
    have hu := (ihstart hbM hs.openBlock).emits hbu
    have hv := ihbody hvM hu.openLoop
    exact (hv.closeLoop.emits hrest).closeBlock
  | exitLoop | nextRound | ret => exact hs.emits (Scope.emits_append _ _ (by simp))
  | retValue _ he _ =>
    exact hs.emits (he.emits.trans (Scope.emits_append _ _ (List.forall_mem_append.2
      ⟨isPlain_coercion, by simp⟩)))

/-- It is safe to run the code of statements where it is safe to go on after them, if control can get
there at all. -/
theorem safe {bs : List Body} (h : Body.Code s bs t) (hM : t.assembler.method.Extends M)
    (hs : s.Fits program M) (hopen : s.assembler.isTerminated = false)
    (hloops : s.LoopsSafe program M n)
    (hafter : t.assembler.isTerminated = false → Body.anyReturns bs = false →
      Safe program M n false t.offset 0) : Safe program M n false s.offset 0 := by
  induction h generalizing n with
  | nil => exact hafter hopen rfl
  | empty => exact hafter hopen rfl
  | @cons s u t part next parts hp hrest ih ih' =>
    have huM := hrest.grows.extends hM
    refine ih huM hs hopen hloops fun hu hreturns => ?_
    refine ih' hM (hp.fits huM hs) hu (hloops.grows hp.grows) fun ht hreturns' => hafter ht ?_
    unfold anyReturns at hreturns ⊢
    simp only [Bool.or_eq_false_iff] at hreturns ⊢
    exact ⟨hreturns.1, hreturns'⟩
  | block hb ih =>
    refine ih hM hs.openBlock hopen hloops fun ht hreturns => hafter ht ?_
    simpa [anyReturns, returns] using hreturns
  | expression he => exact he.safe hM hs (hafter (he.isTerminated hs hopen) rfl)
  | declare hd => exact (hd.safe hM hs).2 (hafter (hd.isTerminated hopen) rfl)
  | @conditional s u v t condition thenBranch hc hb hm ih =>
    have hvM := hm.emits.extends hM
    have hreserved := Scope.emits_reserve s 1
    have hend := hafter hm.isTerminated rfl
    have hlabel := hm.stands hM
    have hbody := ih hvM (hs.emits (hreserved.trans hc.emits)) (hc.isTerminated hopen)
      (hloops.grows (hreserved.trans hc.emits).grows) fun _ _ => by rwa [← hm.offset]
    exact hc.safe (hb.grows.extends hvM) (hs.emits hreserved) hlabel hend hbody
  | @choice s u v w x t condition thenBranch elseBranch hc hthen hm helse ht ihthen ihelse =>
    have hjump := (Scope.emits_reserve v 1).trans v.emits_jumpOver
    have hreserved := Scope.emits_reserve s 1
    have hxM := ht.emits.extends hM
    have hwM := helse.grows.extends hxM
    have hjM := hm.emits.extends hwM
    have hvM := hjump.extends hjM
    have huM := hthen.grows.extends hvM
    have hu := hs.emits (hreserved.trans hc.emits)
    have hloops' := hloops.grows (hreserved.trans hc.emits).grows
    have hw := (hthen.fits hvM hu).emits (hjump.trans hm.emits)
    have hlabel := hm.stands hwM
    have hend := ht.stands hM
    have hreturns : anyReturns [.conditional condition thenBranch (some elseBranch)] =
        (anyReturns [thenBranch] && anyReturns [elseBranch]) := by simp [anyReturns, returns]
    have hsecond : Safe program M n false w.offset 0 := by
      refine ihelse hxM hw hm.isTerminated
        (hloops'.grows (hthen.grows.trans (hjump.trans hm.emits).grows)) fun _ hr => ?_
      rw [← ht.offset]
      exact hafter ht.isTerminated (by rw [hreturns, hr, Bool.and_false])
    have hfirst : Safe program M n false u.offset 0 := by
      refine ihthen hvM hu (hc.isTerminated hopen) hloops' fun hv hr => ?_
      have hafter := hafter ht.isTerminated (by rw [hreturns, hr, Bool.false_and])
      rw [hv] at hjM
      exact (Safe.branch (Scope.hasCode_append hjM).head hend hafter).pred
    exact hc.safe huM (hs.emits hreserved) hlabel hsecond hfirst
  | @whileLoop s a u v t condition body ha hc hb ht ih =>
    have hjump := @Scope.emits_append v.closeLoop [] [.branch s.nextLabel] (by simp)
    have hreserved := Scope.emits_reserve s 2
    have hjM := ht.emits.extends hM
    have hvM := hjump.extends hjM
    have huM := hb.grows.extends hvM
    have haM := hc.emits.extends huM
    have hfits := hs.emits (hreserved.trans ha.emits)
    have hgrows := (hreserved.trans (ha.emits.trans hc.emits)).grows
    have hexit := ht.stands hM
    have hagain := ha.stands haM
    have hend := hafter ht.isTerminated rfl
    have hhead : Safe program M n false a.offset 0 := by
      refine safe_of_round fun k hk hround => ?_
      refine hc.safe huM hfits hexit (hend.mono hk) ?_
      refine ih hvM (hfits.emits hc.emits).openLoop (hc.isTerminated ha.isTerminated) ?_
        fun _ _ => .branch (Scope.hasCode_append hjM).head hagain hround
      refine ((hloops.grows hgrows).mono hk).openLoop hexit hagain fun j hj => ?_
      exact ⟨hend.mono (by omega), hround.mono (by omega)⟩
    rwa [ha.offset] at hhead
  | @doWhileLoop s a v w x t condition body type ha hb hw hx hcomparable ht ih =>
    have hjump := @Scope.emits_append x [] [.branchIf true s.nextLabel] (by simp)
    have hreserved := Scope.emits_reserve s 3
    have hjM := ht.emits.extends hM
    have hxM := hjump.extends hjM
    have hwM := hx.emits.extends hxM
    have hvM := hw.emits.extends hwM
    have haM := hb.grows.extends hvM
    have hfits := hs.emits (hreserved.trans ha.emits)
    have hgrows := (hreserved.trans ha.emits).grows
    have hwfits := (hb.fits hvM hfits.openLoop).closeLoop.emits hw.emits
    have hexit := ht.stands hM
    have hnext := hw.stands hwM
    have hagain := ha.stands haM
    have hend := hafter ht.isTerminated rfl
    have hhead : Safe program M n false a.offset 0 := by
      refine safe_of_round fun k hk hround => ?_
      have hlast : Safe program M (k + 1) false x.offset 1 := by
        have hend := hend.mono (Nat.le_of_lt hk)
        rw [ht.offset, Scope.offset_append] at hend
        exact .branchIf (Scope.hasCode_append hjM).head hagain hround hend
      have htest : Safe program M (k + 1) false w.offset 0 := hx.safe hxM hwfits trivial
        (by rwa [Emission.width_value (CType.isVoid_of_isComparable hcomparable)])
      refine ih hvM hfits.openLoop ha.isTerminated ?_ fun _ _ => hw.offset ▸ htest
      refine ((hloops.grows hgrows).mono hk).openLoop hexit hnext fun j hj => ?_
      exact ⟨hend.mono (by omega), htest.mono (by omega)⟩
    rwa [ha.offset] at hhead
  | @forLoop s b a u v w x t start condition update body hstart ha hc hb hw hx ht ihstart ihbody =>
    have hjump := @Scope.emits_append x [] [.branch b.nextLabel] (by simp)
    have hreserved := Scope.emits_reserve b 3
    have hjM := ht.emits.extends hM
    have hxM := hjump.extends hjM
    have hwM := hx.emits.extends hxM
    have hvM := hw.emits.extends hwM
    have huM := hb.grows.extends hvM
    have haM := hc.emits.extends huM
    have hbM := (hreserved.trans ha.emits).extends haM
    have hfits := (hstart.fits hbM hs.openBlock).emits (hreserved.trans ha.emits)
    have hgrows := (hreserved.trans (ha.emits.trans hc.emits)).grows
    have hufits := (hfits.emits hc.emits).openLoop (l := ⟨b.nextLabel + 2, b.nextLabel + 1⟩)
    have hwfits := (hb.fits hvM hufits).closeLoop.emits hw.emits
    have hexit := ht.stands hM
    have hnext := hw.stands hwM
    have hagain := ha.stands haM
    have hend := hafter ht.isTerminated rfl
    have hbloops : b.LoopsSafe program M n := Scope.LoopsSafe.grows (s := s.openBlock) hloops hstart.grows
    have hhead : Safe program M n false a.offset 0 := by
      refine safe_of_round fun k hk hround => ?_
      have hlast : Safe program M (k + 1) false x.offset 0 :=
        .branch (Scope.hasCode_append hjM).head hagain hround
      have hupdate := hx.safe hxM hwfits hlast
      refine hc.safe huM hfits hexit (hend.mono hk) ?_
      refine ihbody hvM hufits (hc.isTerminated ha.isTerminated) ?_
        fun _ _ => hw.offset ▸ hupdate
      refine ((hbloops.grows hgrows).mono hk).openLoop hexit hnext fun j hj => ?_
      exact ⟨hend.mono (by omega), hupdate.mono (by omega)⟩
    rw [ha.offset] at hhead
    exact ihstart hbM hs.openBlock hopen hloops fun _ _ => hhead
  | @exitLoop s labels outer location hl =>
    obtain ⟨offset, ho, hsafe⟩ := hloops labels (by rw [hl]; exact List.mem_cons_self) _ (.inl rfl)
    cases n with
    | zero => exact .zero
    | succ n => exact .branch (Scope.hasCode_append hM).head ho (hsafe n (Nat.lt_succ_self n))
  | @nextRound s labels outer location hl =>
    obtain ⟨offset, ho, hsafe⟩ := hloops labels (by rw [hl]; exact List.mem_cons_self) _ (.inr rfl)
    cases n with
    | zero => exact .zero
    | succ n => exact .branch (Scope.hasCode_append hM).head ho (hsafe n (Nat.lt_succ_self n))
  | ret hv =>
    have hresults : M.results ≤ 0 := by simp [hs.results, CType.width_of_isVoid hv]
    exact (Safe.ret (Scope.hasCode_append hM).head hresults).pred
  | @retValue s u value type location hv he hconv =>
    have hplain : ∀ i ∈ coercion type s.signature.returnType ++ [.ret], i.isPlain = true :=
      List.forall_mem_append.2 ⟨isPlain_coercion, by simp⟩
    have hcode := Scope.hasCode_append hM
    have hresults : M.results ≤ 1 := by simp [hs.results, CType.width_of_not_isVoid hv]
    have hret := (@Safe.ret program M n _ _ hcode.right.head hresults).pred
    have hcoerce := (runs_coercion (d := 0) type s.signature.returnType).safe hcode.left hret
    exact he.safe ((Scope.emits_append _ _ hplain).extends hM) hs trivial
      (by rwa [Emission.width_value (hconv.isVoid hv)])

end Body.Code

end ManagedC
