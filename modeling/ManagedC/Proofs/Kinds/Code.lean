import ManagedC.Proofs.Kinds.Places
import ManagedC.Proofs.Stack.Height

/-!
# The kinds of values in compiled code

The code of an expression leaves a value of the kind of its type on the stack: an integer, if the type
is an integer type. Names must stand for slots of the kinds of their types, and for functions that take
and give what their signatures say (`Scope.Represents`). Slots have 16 bits, so a method must not have
more variables than that. Main statements: `Emission.Code.typed` for expressions and `Body.Code.typed`
for statements.
-/

namespace ManagedC

open Method (Typed)

variable {program : Module} {M : Method} {last : List Kind → Prop} {s t u : Scope} {n : Nat}
  {d : List Kind}

namespace CType

theorem kind_of_isInteger {type : CType} (h : type.isInteger = true) : type.kind = .number := by
  simp [kind, h]

theorem kind_of_isPointer {type : CType} (h : type.isPointer = true) : type.kind = .any := by
  cases type with
  | pointer => rfl
  | _ => cases h

theorem isInteger_of_isLong {type : CType} (h : type.isLong = true) : type.isInteger = true :=
  (Bool.and_eq_true_iff.1 h).1

theorem kind_arithmeticResult (left right : CType) :
    (arithmeticResult left right).kind = .number := by
  unfold arithmeticResult
  split <;> rfl

end CType

namespace Emission

/-- The kinds of the values that the code leaves on the stack. -/
def kinds : Emission → List Kind
  | .value _ type => type.kinds
  | .address _ _ => [.any]
  | .arguments _ types => (types.map (·.kind)).reverse

theorem kinds_value {e : Expression} {type : CType} (h : type.isVoid = false) :
    (Emission.value e type).kinds = [type.kind] := CType.kinds_of_not_isVoid h

end Emission

/-! ## Straight-line code -/

/-- A conversion makes a value of the kind of its target of one of the kind of its source. -/
theorem turns_coercion {source target : CType} (h : source.Convertible target) :
    M.Turns (coercion source target) (source.kind :: d) (target.kind :: d) := by
  have hinteger : target.isInteger = true → source.isInteger = true := by
    rcases h with rfl | ⟨-, -, h⟩
    · exact id
    · exact h
  unfold coercion
  split
  · rename_i hc
    show source.kind :: d = target.kind :: d
    simp only [Bool.or_eq_true, decide_eq_true_eq, Bool.and_eq_true] at hc
    rcases hc with rfl | ⟨hs, ht⟩
    · rfl
    · rw [CType.kind_of_isPointer hs, CType.kind_of_isPointer ht]
  rename_i hc
  split
  · rename_i ht
    rw [CType.kind_of_isPointer ht]
    exact .single rfl (.convNative (Kind.within_any _))
  rename_i ht
  split
  · rename_i hlong
    have htarget := CType.isInteger_of_isLong (Bool.and_eq_true_iff.1 hlong).1
    rw [CType.kind_of_isInteger (hinteger htarget)]
    exact .single rfl (.convInt64 (Kind.number_within _))
  split
  · exact .single rfl .convInt32
  · -- Neither is a pointer and they differ, so both are integers.
    show source.kind :: d = target.kind :: d
    rcases h with rfl | ⟨-, hcomparable, -⟩
    · rfl
    have htarget : target.isInteger = true := by
      unfold CType.isComparable at hcomparable
      simpa [ht] using hcomparable
    rw [CType.kind_of_isInteger htarget, CType.kind_of_isInteger (hinteger htarget)]

theorem turns_comparisonCode (op : ComparisonOp) (k l l' : Kind) :
    M.Turns (comparisonCode op) (k :: l :: d) (l' :: d) := by
  unfold comparisonCode
  split
  · exact ⟨rfl, .any :: d, .compare, rfl, .any :: .any :: d, .constInt32, rfl, _, .compare, rfl⟩
  · exact .single rfl .compare

/-- A number of steps becomes a number of bytes. -/
theorem turns_scaling (size : Int32) : M.Turns (scaling size) (.number :: d) (.number :: d) := by
  unfold scaling
  split
  · exact ⟨rfl, .number :: d, .convNative .rfl, rfl, .number :: .number :: d, .constInt32, rfl,
      .number :: .number :: d, .convNative .rfl, rfl, _, .sum, rfl⟩
  · exact .single rfl (.convNative .rfl)

/-- The number of steps between two pointers is a number. -/
theorem turns_difference (size : Int32) (k l : Kind) :
    M.Turns (.binary .sub :: unscaling size ++ [.convInt64]) (k :: l :: d) (.number :: d) := by
  unfold unscaling
  split
  · exact ⟨rfl, .any :: d, .move, rfl, .any :: .any :: d, .constInt32, rfl, .any :: .any :: d,
      .convNative .rfl, rfl, .number :: d, .combine nofun nofun, rfl, _, .convInt64 .rfl, rfl⟩
  · exact ⟨rfl, .number :: d, .difference rfl, rfl, _, .convInt64 .rfl, rfl⟩

theorem turns_unification {left right : CType} {slot : UInt16}
    (hslot : unificationTemporaries left right ≠ [] → M.kindAt? (.local slot) = some .number) :
    M.Turns (unification left right slot) (.number :: .number :: d) (.number :: .number :: d) := by
  have hconvert : M.Turns [.convInt64] (.number :: .number :: d) (.number :: .number :: d) :=
    .single rfl (.convInt64 .rfl)
  unfold unification
  unfold unificationTemporaries at hslot
  split
  · rename_i hlong
    refine .append (?_ : M.Turns _ _ (.number :: .number :: d)) ?_
    · split
      · rfl
      · exact hconvert
    · split
      · rfl
      · rename_i hleft
        have hkind := hslot (by simp [hlong, hleft])
        exact ⟨rfl, .number :: d, .storeLocal hkind .rfl, rfl, .number :: d, .convInt64 .rfl, rfl, _,
          .loadLocal hkind .rfl, rfl⟩
  · rfl

/-- An operator combines values of the kinds of its operands to one of the kind of its result. -/
theorem OperatorCode.turns {slot : UInt16} {op : BinaryOp} {left right type : CType}
    {ts : List TargetType} {code : List Instruction}
    (h : OperatorCode slot op left right ts code type)
    (hslot : ∀ t ∈ ts.head?, M.kindAt? (.local slot) = some t.kind) :
    M.Turns code (right.kind :: left.kind :: d) (type.kind :: d) := by
  have hunify : ∀ {left right : CType}, (∀ t ∈ (unificationTemporaries left right).head?,
      M.kindAt? (.local slot) = some t.kind) →
      unificationTemporaries left right ≠ [] → M.kindAt? (.local slot) = some .number := by
    intro left right hslot hne
    unfold unificationTemporaries at hslot hne
    split at hne
    · rename_i hc
      rw [if_pos hc] at hslot
      exact hslot .int64 rfl
    · exact absurd rfl hne
  cases h with
  | compareIntegers hl hr =>
    rw [CType.kind_of_isInteger hl, CType.kind_of_isInteger hr]
    exact (turns_unification (hunify hslot)).append (turns_comparisonCode _ _ _ _)
  | integers hl hr =>
    rw [CType.kind_of_isInteger hl, CType.kind_of_isInteger hr, CType.kind_arithmeticResult]
    exact (turns_unification (hunify hslot)).append (.single rfl .sum)
  | comparePointers => exact turns_comparisonCode _ _ _ _
  | movePointer size hl hr =>
    rw [CType.kind_of_isPointer hl, CType.kind_of_isInteger hr]
    exact (turns_scaling size).append (.single rfl .move)
  | stepsFirst size target hl hr _ htarget =>
    have hkind := hslot target rfl
    rw [CType.kind_target htarget, CType.kind_of_isPointer hr] at hkind
    rw [CType.kind_of_isInteger hl, CType.kind_of_isPointer hr]
    refine ⟨rfl, .number :: d, .storeLocal hkind .rfl, ?_⟩
    exact (turns_scaling size).append ⟨rfl, .any :: .number :: d, .loadLocal hkind .rfl, rfl, _, .move, rfl⟩
  | difference size hl hr =>
    exact turns_difference size _ _

/-! ## Names -/

/-- A variable has values, and it stands for a slot of their kind. -/
structure Variable.Represented (M : Method) (v : Variable) : Prop where
  kind : M.kindAt? v.slot = some v.type.kind
  isVoid : v.type.isVoid = false

/-- A function takes and gives values of the kinds that its signature says. -/
structure FunctionSignature.Represented (program : Module) (signature : FunctionSignature) : Prop where
  /-- A call finds a method with these kinds, or the starter. -/
  callee : (∃ entry, program.findMethod? signature.method.name = some (EntryPoint.bridge entry)) ∨
    ∃ callee, program.findMethod? signature.method.name = some callee ∧
      callee.takenKinds = ((signature.parameters.getD []).map (·.kind)).reverse ∧
      callee.givenKinds = signature.returnType.kinds
  isVoid : ∀ type ∈ signature.parameters.getD [], type.isVoid = false

/-- Names stand for what the finished method and the finished program have, and the method has no more
slots than can be numbered. -/
structure Scope.Represents (program : Module) (M : Method) (s : Scope) : Prop where
  parameters : ∀ p ∈ s.parameters, p.2.Represented M
  blocks : ∀ names ∈ s.blocks, ∀ p ∈ names, p.2.Represented M
  functions : ∀ name signature, s.findFunction? name = some signature → signature.Represented program
  givenKinds : M.givenKinds = s.signature.returnType.kinds
  slots : M.locals.size ≤ 2 ^ 16
  handlers : M.body.handlers = []

namespace Scope

/-- A local variable that was added to the method has the next slot. -/
theorem kindAt?_nextSlot {v : LocalVariable} (hslots : M.locals.size ≤ 2 ^ 16)
    (hv : M.locals[s.assembler.method.locals.size]? = some v) :
    M.kindAt? (.local s.nextSlot) = some v.type.kind := by
  have hlt := (Array.getElem?_eq_some_iff.1 hv).1
  have hslot : s.nextSlot.toNat = s.assembler.method.locals.size := by
    rw [nextSlot, UInt16.toNat_ofNat', Nat.mod_eq_of_lt (by omega)]
  rw [Method.kindAt?, hslot, hv]
  rfl

/-- The first temporary has the next slot. -/
theorem kindAt?_temporary {ts : List TargetType} {code : List Instruction}
    (hM : (s.append ts code).assembler.method.Extends M) (hslots : M.locals.size ≤ 2 ^ 16) :
    ∀ t ∈ ts.head?, M.kindAt? (.local s.nextSlot) = some t.kind := by
  intro type htype
  cases ts with
  | nil => cases htype
  | cons t ts =>
    obtain rfl : t = type := Option.some.inj htype
    refine kindAt?_nextSlot (v := ⟨none, t, false⟩) hslots (hM.variableAt ?_)
    simp only [append]
    rw [Array.getElem?_append_right (Nat.le_refl _)]
    simp

namespace Represents

theorem emits (h : s.Represents program M) (he : s.Emits t) : t.Represents program M := by
  rw [he.eq]
  exact ⟨h.parameters, h.blocks, h.functions, h.givenKinds, h.slots, h.handlers⟩

theorem openLoop (h : s.Represents program M) {l : LoopLabels} :
    (s.openLoop l).Represents program M :=
  ⟨h.parameters, h.blocks, h.functions, h.givenKinds, h.slots, h.handlers⟩

theorem closeLoop (h : s.Represents program M) : s.closeLoop.Represents program M :=
  ⟨h.parameters, h.blocks, h.functions, h.givenKinds, h.slots, h.handlers⟩

theorem openBlock (h : s.Represents program M) : s.openBlock.Represents program M :=
  ⟨h.parameters, List.forall_mem_cons.2 ⟨by simp, h.blocks⟩, h.functions, h.givenKinds, h.slots, h.handlers⟩

theorem closeBlock (h : s.Represents program M) : s.closeBlock.Represents program M :=
  ⟨h.parameters, fun names hn => h.blocks names (List.mem_of_mem_tail hn), h.functions, h.givenKinds,
    h.slots, h.handlers⟩

theorem represented (h : s.Represents program M) {name : String} {v : Variable}
    (hv : s.findVariable? name = some v) : v.Represented M := by
  rcases mem_of_findVariable? hv with hp | ⟨names, hnames, hp⟩
  · exact h.parameters _ hp
  · exact h.blocks names hnames _ hp

/-- A declared variable stands for the slot that it gets. -/
theorem declareVariable (h : s.Represents program M) {name : String} {type : CType}
    {target : TargetType} (hM : (s.declareVariable name type target).assembler.method.Extends M)
    (hv : type.isVoid = false) (htarget : type.target = .ok target) :
    (s.declareVariable name type target).Represents program M := by
  have hkind : M.kindAt? (.local s.nextSlot) = some type.kind := by
    rw [← CType.kind_target htarget]
    refine kindAt?_nextSlot (v := ⟨some name, target, false⟩) h.slots (hM.variableAt ?_)
    simp [Scope.declareVariable, Assembler.pushLocal]
  refine ⟨h.parameters, ?_, h.functions, h.givenKinds, h.slots, h.handlers⟩
  intro names hnames p hp
  rcases List.mem_cons.1 hnames with rfl | hnames
  · rcases List.mem_cons.1 hp with rfl | hp
    · exact ⟨hkind, hv⟩
    · cases hb : s.blocks with
      | nil =>
        rw [hb] at hp
        cases hp
      | cons inner outer =>
        rw [hb] at hp
        exact h.blocks inner (by rw [hb]; exact List.mem_cons_self) p hp
  · exact h.blocks names (List.mem_of_mem_tail hnames) p hp

end Represents

/-- Straight-line code leads to a typed place. -/
theorem typed_append {ts : List TargetType} {code : List Instruction} {e : List Kind}
    (hM : (s.append ts code).assembler.method.Extends M) (hturns : M.Turns code d e)
    (hafter : Typed program M last n (s.append ts code).offset e) :
    Typed program M last n s.offset d :=
  hturns.typed (hasCode_append hM) (by rwa [offset_append] at hafter)

end Scope

theorem Variable.Represented.turns_load {v : Variable} (h : v.Represented M) :
    M.Turns [v.load] d (v.type.kind :: d) := by
  obtain ⟨⟨slot⟩ | ⟨slot⟩, type⟩ := v
  · exact .single rfl (.loadArgument h.kind .rfl)
  · exact .single rfl (.loadLocal h.kind .rfl)

/-- A value is stored and stays on the stack. -/
theorem Variable.Represented.turns_store {v : Variable} (h : v.Represented M) :
    M.Turns [.dup, v.store] (v.type.kind :: d) (v.type.kind :: d) := by
  obtain ⟨⟨slot⟩ | ⟨slot⟩, type⟩ := v
  · exact ⟨rfl, _, .dup, rfl, _, .storeArgument h.kind .rfl, rfl⟩
  · exact ⟨rfl, _, .dup, rfl, _, .storeLocal h.kind .rfl, rfl⟩

/-- A value is stored through an address and stays on the stack. -/
theorem turns_storeThrough {stored : TargetType} {slot : UInt16} {k l : Kind}
    (hslot : M.kindAt? (.local slot) = some k) :
    M.Turns [.dup, .storeLocal slot, .store stored, .loadLocal slot] (k :: l :: d) (k :: d) :=
  ⟨rfl, _, .dup, rfl, _, .storeLocal hslot .rfl, rfl, _, .store, rfl, _,
    .loadLocal hslot .rfl, rfl⟩

/-! ## Expressions -/

/-- The code of an expression leads to a typed place where the values of the expression are on the
stack. -/
theorem Emission.Code.typed {e : Emission} (h : e.Code s t) (hM : t.assembler.method.Extends M)
    (hs : s.Represents program M) (hpass : e.Passable)
    (hafter : Typed program M last n t.offset (e.kinds ++ d)) :
    Typed program M last n s.offset d := by
  induction h generalizing d with
  | intLiteral => exact Scope.typed_append hM (.single rfl .constInt32) hafter
  | longLiteral => exact Scope.typed_append hM (.single rfl .constInt64) hafter
  | identifier hv =>
    have hv := hs.represented hv
    rw [kinds_value hv.isVoid] at hafter
    exact Scope.typed_append hM hv.turns_load hafter
  | @logical s u v w t span op left right leftType rightType hl hlc hr hrc hw ht ihl ihr =>
    have hjump : u.Emits (u.append [] [.branchIf op.decisive s.nextLabel]) :=
      Scope.emits_append _ _ (by simp [Instruction.isPlain])
    have hwM := ht.emits.extends hM
    have hw' := (Scope.emits_append _ _ (by simp [Instruction.isPlain])).extends hwM
    have hvM' := hw.emits.extends hw'
    have hvM := (Scope.emits_append _ _ (by simp [Instruction.isPlain])).extends hvM'
    have huM' := hr.emits.extends hvM
    have hdecided : Typed program M last n w.offset d := by
      refine Scope.typed_append hwM (e := .number :: d) (.single rfl .constInt32) ?_
      rwa [← ht.offset]
    have hlabel := hw.stands hw'
    have hend := ht.stands hM
    have hright : ∀ k, Typed program M last n v.offset (k :: d) := by
      intro k
      have hcode := Scope.hasCode_append hvM'
      have hlast : Typed program M last (n + 1) (v.offset + 1 + 1) (.number :: d) :=
        (Method.typed_branch hcode.tail.tail.head).2 ⟨t.offset, hend, hafter⟩
      have hconst := (Method.typed_straight hcode.tail.head rfl).2 ⟨_, .constInt32, hlast.pred⟩
      exact ((Method.typed_branchIf hcode.head).2
        ⟨k, d, w.offset, rfl, hlabel, hdecided, hconst.pred⟩).pred
    have hleft : ∀ k, Typed program M last n u.offset (k :: d) := by
      intro k
      have hcode := Scope.hasCode_append huM'
      have hrepresents := hs.emits ((Scope.emits_reserve s 2).trans (hl.emits.trans hjump))
      have hsecond := ihr hvM hrepresents trivial
        (by rw [kinds_value (CType.isVoid_of_isComparable hrc)]; exact hright _)
      rw [Scope.offset_append] at hsecond
      exact ((Method.typed_branchIf hcode.head).2
        ⟨k, d, w.offset, rfl, hlabel, hdecided, hsecond⟩).pred
    exact ihl (hjump.extends huM') (hs.emits (Scope.emits_reserve s 2)) trivial
      (by rw [kinds_value (CType.isVoid_of_isComparable hlc)]; exact hleft _)
  | binary hl hr hcode ihl ihr =>
    obtain ⟨hlc, hrc⟩ := hcode.operands
    rw [kinds_value hcode.isVoid] at hafter
    have hvM := (Scope.emits_append _ _ hcode.isPlain).extends hM
    have hright := Scope.typed_append hM (hcode.turns (Scope.kindAt?_temporary hM hs.slots)) hafter
    have hleft := ihr hvM (hs.emits hl.emits) trivial
      (by rwa [kinds_value (CType.isVoid_of_isComparable hrc)])
    exact ihl (hr.emits.extends hvM) hs trivial
      (by rwa [kinds_value (CType.isVoid_of_isComparable hlc)])
  | @negate s u span operand type he hi ih =>
    rw [kinds_value (CType.isVoid_arithmeticResult _ _)] at hafter
    have hrest := Scope.typed_append hM (d := type.kind :: d) (.single rfl .neg) hafter
    have hvoid := CType.isVoid_of_isComparable (CType.isComparable_of_isInteger hi)
    exact ih ((Scope.emits_append _ _ (by simp [Instruction.isPlain])).extends hM) hs trivial
      (by rwa [kinds_value hvoid])
  | @bitNot s u span operand type he hi ih =>
    rw [kinds_value (CType.isVoid_arithmeticResult _ _)] at hafter
    have hrest := Scope.typed_append hM (d := type.kind :: d) (.single rfl .not) hafter
    have hvoid := CType.isVoid_of_isComparable (CType.isComparable_of_isInteger hi)
    exact ih ((Scope.emits_append _ _ (by simp [Instruction.isPlain])).extends hM) hs trivial
      (by rwa [kinds_value hvoid])
  | @logicalNot s u span operand type he hc ih =>
    have hturns : M.Turns [.constInt32 0, .compare .ceq] (type.kind :: d) (.number :: d) :=
      ⟨rfl, .any :: type.kind :: d, .constInt32, .single rfl .compare⟩
    have hrest := Scope.typed_append hM hturns hafter
    exact ih ((Scope.emits_append _ _ (by simp [Instruction.isPlain])).extends hM) hs trivial
      (by rwa [kinds_value (CType.isVoid_of_isComparable hc)])
  | load ha hstored ih =>
    rw [kinds_value ha.isVoid_address] at hafter
    have hrest := Scope.typed_append hM (d := .any :: d)
      (.single rfl (.load (CType.loads_target hstored))) hafter
    exact ih ((Scope.emits_append _ _ (by simp [Instruction.isPlain])).extends hM) hs trivial hrest
  | assign hv he hconv ih =>
    have hv := hs.represented hv
    rw [kinds_value hv.isVoid] at hafter
    have hrest := Scope.typed_append hM ((turns_coercion hconv).append hv.turns_store) hafter
    have huM := (Scope.emits_append _ _ (List.forall_mem_append.2
      ⟨isPlain_coercion, Variable.isPlain_store _⟩)).extends hM
    exact ih huM hs trivial (by rwa [kinds_value (hconv.isVoid hv.isVoid)])
  | @update s u span span' name value v op valueType type ts code hv he hcode hconv ih =>
    have hv := hs.represented hv
    have hload : s.Emits (s.append [] [v.load]) := Scope.emits_append _ _ v.isPlain_load
    have hplain : ∀ i ∈ code ++ coercion type v.type ++ [.dup, v.store], i.isPlain = true :=
      List.forall_mem_append.2
        ⟨List.forall_mem_append.2 ⟨hcode.isPlain, isPlain_coercion⟩, v.isPlain_store⟩
    have huM := (Scope.emits_append _ _ hplain).extends hM
    rw [kinds_value hv.isVoid] at hafter
    have hturns := ((hcode.turns (d := d) (Scope.kindAt?_temporary hM hs.slots)).append
      (turns_coercion hconv)).append hv.turns_store
    have hrest := Scope.typed_append hM hturns hafter
    have hvalue := ih huM (hs.emits hload) trivial
      (by rwa [kinds_value (CType.isVoid_of_isComparable hcode.operands.2)])
    exact Scope.typed_append (he.emits.extends huM) hv.turns_load hvalue
  | @assignThrough s u v span target value element type stored ha hstored he hconv iha ihe =>
    have hplain : ∀ i ∈ coercion type element ++ [.dup, .storeLocal v.nextSlot, .store stored,
        .loadLocal v.nextSlot], i.isPlain = true :=
      List.forall_mem_append.2 ⟨isPlain_coercion, by simp [Instruction.isPlain]⟩
    have hvM := (Scope.emits_append _ _ hplain).extends hM
    have hslot := Scope.kindAt?_temporary hM hs.slots stored rfl
    rw [CType.kind_target hstored] at hslot
    rw [kinds_value ha.isVoid_address] at hafter
    have hrest := Scope.typed_append hM
      ((turns_coercion hconv).append (turns_storeThrough (l := .any) hslot)) hafter
    have hvalue := ihe hvM (hs.emits ha.emits) trivial
      (by rwa [kinds_value (hconv.isVoid ha.isVoid_address)])
    exact iha (he.emits.extends hvM) hs trivial hvalue
  | @updateThrough s u v w span target value op element valueType type stored ts code ha hstored he
      hcode hconv hw iha ihe =>
    have hload : u.Emits (u.append [] [.dup, .load stored]) :=
      Scope.emits_append _ _ (by simp [Instruction.isPlain])
    have hplain : ∀ i ∈ coercion type element ++ [.dup, .storeLocal w.nextSlot, .store stored,
        .loadLocal w.nextSlot], i.isPlain = true :=
      List.forall_mem_append.2 ⟨isPlain_coercion, by simp [Instruction.isPlain]⟩
    have hwM := (Scope.emits_append _ _ hplain).extends hM
    have hslot := Scope.kindAt?_temporary hM hs.slots stored rfl
    rw [CType.kind_target hstored] at hslot
    rw [kinds_value ha.isVoid_address] at hafter
    have hrest := Scope.typed_append hM
      ((turns_coercion hconv).append (turns_storeThrough (l := .any) hslot)) hafter
    subst hw
    have hvM := (Scope.emits_append _ _ hcode.isPlain).extends hwM
    have hop := Scope.typed_append hwM
      (hcode.turns (Scope.kindAt?_temporary hwM hs.slots)) hrest
    have hvalue := ihe hvM (hs.emits (ha.emits.trans hload)) trivial
      (by rwa [kinds_value (CType.isVoid_of_isComparable hcode.operands.2)])
    have huM := he.emits.extends hvM
    have hfetch : M.Turns [.dup, .load stored] (.any :: d) (element.kind :: .any :: d) :=
      ⟨rfl, _, .dup, .single rfl (.load (CType.loads_target hstored))⟩
    exact iha (hload.extends huM) hs trivial (Scope.typed_append huM hfetch hvalue)
  | call hf hcount ha ih =>
    obtain ⟨hcallee, hpassable⟩ := hs.functions _ _ hf
    have hinstruction := (Scope.hasCode_append hM).head
    refine ih ((Scope.emits_append _ _ (by simp [Instruction.isPlain])).extends hM) hs hpassable
      (Typed.pred ?_)
    rcases hcallee with hstarter | ⟨callee, hcallee, htaken, hgiven⟩
    · exact (Method.typed_call hinstruction).2 (.inl ⟨hs.handlers, hstarter⟩)
    · rw [kinds, ← hgiven, Scope.offset_append] at hafter
      have hpasses : M.PassesTo callee callee.takenKinds :=
        ⟨List.forall₂_same.2 fun _ _ => .rfl, .inl hs.handlers⟩
      rw [htaken] at hpasses
      exact (Method.typed_call hinstruction).2
        (.inr ⟨callee, _, d, hcallee, hpasses, rfl, hafter⟩)
  | @subscript s u v span array index arrayType indexType element ts code ha hi hcode hv iha ihi =>
    obtain ⟨hlc, hrc⟩ := hcode.operands
    have hvM := (Scope.emits_append _ _ hcode.isPlain).extends hM
    have hindex := Scope.typed_append hM (hcode.turns (Scope.kindAt?_temporary hM hs.slots)) hafter
    have harray := ihi hvM (hs.emits ha.emits) trivial
      (by rwa [kinds_value (CType.isVoid_of_isComparable hrc)])
    exact iha (hi.emits.extends hvM) hs trivial
      (by rwa [kinds_value (CType.isVoid_of_isComparable hlc)])
  | dereference _ _ ih => exact ih hM hs trivial hafter
  | noArguments => exact hafter
  | @argument s u t e es type parameter types hvalue hconv hes ihe ih =>
    obtain ⟨hvoid, hpassable⟩ := List.forall_mem_cons.1 hpass
    have hcoerce : u.Emits (u.append [] (coercion type parameter)) :=
      Scope.emits_append _ _ isPlain_coercion
    have huM := hes.emits.extends hM
    have hrest := ih hM (hs.emits (hvalue.emits.trans hcoerce)) hpassable (d := parameter.kind :: d)
      (by simpa [kinds] using hafter)
    have hconverted := Scope.typed_append huM (turns_coercion hconv) hrest
    exact ihe (hcoerce.extends huM) hs trivial (by rwa [kinds_value (hconv.isVoid hvoid)])

/-! ## Parts of statements -/

theorem Expression.EffectCode.typed {e : Option Expression} (h : EffectCode s e t)
    (hM : t.assembler.method.Extends M) (hs : s.Represents program M)
    (hafter : Typed program M last n t.offset d) : Typed program M last n s.offset d := by
  cases h with
  | none => exact hafter
  | @some u e type he =>
    cases hv : type.isVoid with
    | true =>
      simp only [hv, if_true, Scope.append_nil] at hM hafter
      refine he.typed hM hs trivial ?_
      rwa [Emission.kinds, CType.kinds_of_isVoid hv]
    | false =>
      simp only [hv, Bool.false_eq_true, if_false] at hM hafter
      have huM := (Scope.emits_append _ _ (by simp [Instruction.isPlain])).extends hM
      have hpop := Scope.typed_append hM (d := type.kind :: d) (.single rfl .pop) hafter
      exact he.typed huM hs trivial (by rwa [Emission.kinds_value hv])

/-- A test goes on behind it or at its label. -/
theorem Expression.TestCode.typed {e : Option Expression} {label : Label} {offset : Nat}
    (h : TestCode s e label t) (hM : t.assembler.method.Extends M) (hs : s.Represents program M)
    (hlabel : M.body.labels.offset? label = Option.some offset)
    (helse : Typed program M last n offset d) (hafter : Typed program M last n t.offset d) :
    Typed program M last n s.offset d := by
  cases h with
  | none => exact hafter
  | @some u e type _ he hc =>
    have huM := (Scope.emits_append _ _ (by simp [Instruction.isPlain])).extends hM
    rw [Scope.offset_append] at hafter
    have hjump := ((Method.typed_branchIf (Scope.hasCode_append hM).head).2
      ⟨type.kind, d, offset, rfl, hlabel, helse, hafter⟩).pred
    exact he.typed huM hs trivial
      (by rwa [Emission.kinds_value (CType.isVoid_of_isComparable hc)])

/-- What a declaration declares stands for its slot. -/
theorem LocalDeclaration.Code.typed {declared : LocalDeclaration} (h : declared.Code s t)
    (hM : t.assembler.method.Extends M) (hs : s.Represents program M) :
    t.Represents program M ∧
      (Typed program M last n t.offset d → Typed program M last n s.offset d) := by
  cases h with
  | plain _ hv htarget => exact ⟨hs.declareVariable hM hv htarget, id⟩
  | initialized hinit he hconv hv htarget =>
    rename_i u e type target
    have hplain : ∀ i ∈ coercion type declared.type ++ [.storeLocal u.nextSlot],
        i.isPlain = true := List.forall_mem_append.2 ⟨isPlain_coercion, by simp [Instruction.isPlain]⟩
    have hstore := Scope.emits_append (u.declareVariable declared.name declared.type target) []
      hplain
    have hdM := hstore.extends hM
    have hrepresents := (hs.emits he.emits).declareVariable hdM hv htarget
    refine ⟨hrepresents.emits hstore, fun hafter => ?_⟩
    have hslot : M.kindAt? (.local u.nextSlot) = some declared.type.kind :=
      (hrepresents.blocks _ List.mem_cons_self _ List.mem_cons_self).kind
    have hturns := (turns_coercion (d := d) hconv).append
      (.single rfl (.storeLocal hslot .rfl))
    have hrest : Typed program M last n u.offset (type.kind :: d) :=
      Scope.typed_append (s := u.declareVariable declared.name declared.type target) hM hturns hafter
    have huM := (Scope.grows_declareVariable u _ _ _).method.trans hdM
    exact he.typed huM hs trivial (by rwa [Emission.kinds_value (hconv.isVoid hv)])

theorem LocalDeclaration.ListCode.typed {ds : List LocalDeclaration} (h : ListCode s ds t)
    (hM : t.assembler.method.Extends M) (hs : s.Represents program M) :
    t.Represents program M ∧
      (Typed program M last n t.offset d → Typed program M last n s.offset d) := by
  induction h with
  | nil => exact ⟨hs, id⟩
  | cons hd hds ih =>
    obtain ⟨hu, hfirst⟩ := hd.typed (hds.grows.method.trans hM) hs
    obtain ⟨ht, hrest⟩ := ih hM hu
    exact ⟨ht, fun hafter => hfirst (hrest hafter)⟩

/-! ## Statements -/

namespace Scope

/-- The ends and next rounds of open loops are typed places. -/
def LoopsTyped (program : Module) (M : Method) (last : List Kind → Prop) (n : Nat) (s : Scope) :
    Prop :=
  ∀ labels ∈ s.loops, ∀ label, label = labels.exit ∨ label = labels.next →
    ∃ offset, M.body.labels.offset? label = some offset ∧
      ∀ k < n, Typed program M last k offset []

theorem LoopsTyped.mono (h : s.LoopsTyped program M last n) {k : Nat} (hk : k ≤ n) :
    s.LoopsTyped program M last k := by
  intro labels hl label hlabel
  obtain ⟨offset, ho, htyped⟩ := h labels hl label hlabel
  exact ⟨offset, ho, fun j hj => htyped j (by omega)⟩

theorem LoopsTyped.grows (h : s.LoopsTyped program M last n) (hst : s.Grows t) :
    t.LoopsTyped program M last n := by
  rw [hst.eq]
  exact h

theorem LoopsTyped.openLoop (h : s.LoopsTyped program M last n) {labels : LoopLabels}
    {exit next : Nat} (hexit : M.body.labels.offset? labels.exit = some exit)
    (hnext : M.body.labels.offset? labels.next = some next)
    (htyped : ∀ k < n, Typed program M last k exit [] ∧ Typed program M last k next []) :
    (s.openLoop labels).LoopsTyped program M last n := by
  intro ls hls label hlabel
  rcases List.mem_cons.1 hls with rfl | hls
  · rcases hlabel with rfl | rfl
    · exact ⟨exit, hexit, fun k hk => (htyped k hk).1⟩
    · exact ⟨next, hnext, fun k hk => (htyped k hk).2⟩
  · exact h ls hls label hlabel

end Scope

/-- A place is typed if going round from it to itself is. -/
theorem typed_of_round {pc : Nat}
    (h : ∀ k < n, Typed program M last k pc d → Typed program M last (k + 1) pc d) :
    Typed program M last n pc d := by
  induction n with
  | zero => trivial
  | succ n ih => exact h n (Nat.lt_succ_self n) (ih fun k hk => h k (Nat.lt_succ_of_lt hk))

namespace Body.Code

/-- Names go on to stand for what they should while bodies are compiled. -/
theorem represents {bs : List Body} (h : Body.Code s bs t) (hM : t.assembler.method.Extends M)
    (hs : s.Represents program M) : t.Represents program M := by
  induction h with
  | nil | empty => exact hs
  | cons _ hrest ih ih' => exact ih' hM (ih (hrest.grows.extends hM) hs)
  | block _ ih => exact (ih hM hs.openBlock).closeBlock
  | expression he => exact hs.emits he.emits
  | @declare s t ds hd =>
    have htyped : _ ∧ (Typed program M (fun _ => True) 0 t.offset [] → _) := hd.typed hM hs
    exact htyped.1
  | conditional hc _ hm ih =>
    have hvM := hm.emits.extends hM
    exact (ih hvM (hs.emits ((Scope.emits_reserve _ _).trans hc.emits))).emits hm.emits
  | @choice s u v w x t condition thenBranch elseBranch hc hthen hm helse ht ihthen ihelse =>
    have hjump := (Scope.emits_reserve v 1).trans v.emits_jumpOver
    have hxM := ht.emits.extends hM
    have hwM := helse.grows.extends hxM
    have hvM := (hjump.trans hm.emits).extends hwM
    have hv := ihthen hvM (hs.emits ((Scope.emits_reserve _ _).trans hc.emits))
    exact (ihelse hxM (hv.emits (hjump.trans hm.emits))).emits ht.emits
  | @whileLoop s a u v t condition body ha hc hb ht ih =>
    have hjump := @Scope.emits_append v.closeLoop [] [.branch s.nextLabel]
      (by simp [Instruction.isPlain])
    have hvM := (hjump.trans ht.emits).extends hM
    have hu := hs.emits ((Scope.emits_reserve _ _).trans (ha.emits.trans hc.emits))
    exact (ih hvM hu.openLoop).closeLoop.emits (hjump.trans ht.emits)
  | @doWhileLoop s a v w x t condition body type ha hb hw hx _ ht ih =>
    have hjump := @Scope.emits_append x [] [.branchIf true s.nextLabel]
      (by simp [Instruction.isPlain])
    have hrest := hw.emits.trans (hx.emits.trans (hjump.trans ht.emits))
    have hvM := hrest.extends hM
    have hu := hs.emits ((Scope.emits_reserve _ _).trans ha.emits)
    exact (ih hvM hu.openLoop).closeLoop.emits hrest
  | @forLoop s b a u v w x t start condition update body hstart ha hc hb hw hx ht ihstart ihbody =>
    have hjump := @Scope.emits_append x [] [.branch b.nextLabel] (by simp [Instruction.isPlain])
    have hrest := hw.emits.trans (hx.emits.trans (hjump.trans ht.emits))
    have hvM := hrest.extends hM
    have hbu := (Scope.emits_reserve b 3).trans (ha.emits.trans hc.emits)
    have hbM := hbu.extends (hb.grows.extends hvM)
    have hu := (ihstart hbM hs.openBlock).emits hbu
    exact ((ihbody hvM hu.openLoop).closeLoop.emits hrest).closeBlock
  | exitLoop | nextRound | ret =>
    exact hs.emits (Scope.emits_append _ _ (by simp [Instruction.isPlain]))
  | retValue _ he _ =>
    exact hs.emits (he.emits.trans (Scope.emits_append _ _ (List.forall_mem_append.2
      ⟨isPlain_coercion, by simp [Instruction.isPlain]⟩)))

/-- The code of statements leads from one typed place to another with the stack as it was. -/
theorem typed {bs : List Body} (h : Body.Code s bs t) (hM : t.assembler.method.Extends M)
    (hs : s.Represents program M) (hloops : s.LoopsTyped program M last n)
    (hafter : Typed program M last n t.offset []) : Typed program M last n s.offset [] := by
  induction h generalizing n with
  | nil | empty => exact hafter
  | cons hp hrest ih ih' =>
    have huM := hrest.grows.extends hM
    exact ih huM hs hloops (ih' hM (hp.represents huM hs) (hloops.grows hp.grows) hafter)
  | block hb ih => exact ih hM hs.openBlock hloops hafter
  | expression he => exact he.typed hM hs hafter
  | declare hd => exact (hd.typed hM hs).2 hafter
  | @conditional s u v t condition thenBranch hc hb hm ih =>
    have hvM := hm.emits.extends hM
    have hreserved := Scope.emits_reserve s 1
    have hlabel := hm.stands hM
    have hbody := ih hvM (hs.emits (hreserved.trans hc.emits))
      (hloops.grows (hreserved.trans hc.emits).grows) (by rwa [← hm.offset])
    exact hc.typed (hb.grows.extends hvM) (hs.emits hreserved) hlabel hafter hbody
  | @choice s u v w x t condition thenBranch elseBranch hc hthen hm helse ht ihthen ihelse =>
    have hjump := (Scope.emits_reserve v 1).trans v.emits_jumpOver
    have hreserved := Scope.emits_reserve s 1
    have hxM := ht.emits.extends hM
    have hwM := helse.grows.extends hxM
    have hjM := hm.emits.extends hwM
    have hvM := hjump.extends hjM
    have huM := hthen.grows.extends hvM
    have hu := hs.emits (hreserved.trans hc.emits)
    have hloops' := hloops.grows (hreserved.trans hc.emits).grows
    have hw := (hthen.represents hvM hu).emits (hjump.trans hm.emits)
    have hlabel := hm.stands hwM
    have hend := ht.stands hM
    have hsecond : Typed program M last n w.offset [] :=
      ihelse hxM hw (hloops'.grows (hthen.grows.trans (hjump.trans hm.emits).grows))
        (by rwa [← ht.offset])
    have hfirst : Typed program M last n u.offset [] := by
      refine ihthen hvM hu hloops' ?_
      cases hv : v.assembler.isTerminated with
      | true =>
        -- Without a jump the alternative comes next.
        rw [hm.offset, hv, if_pos rfl, Scope.offset_append] at hsecond
        exact hsecond
      | false =>
        rw [hv] at hjM
        exact ((Method.typed_branch (Scope.hasCode_append hjM).head).2 ⟨_, hend, hafter⟩).pred
    exact hc.typed huM (hs.emits hreserved) hlabel hsecond hfirst
  | @whileLoop s a u v t condition body ha hc hb ht ih =>
    have hjump := @Scope.emits_append v.closeLoop [] [.branch s.nextLabel]
      (by simp [Instruction.isPlain])
    have hreserved := Scope.emits_reserve s 2
    have hjM := ht.emits.extends hM
    have hvM := hjump.extends hjM
    have huM := hb.grows.extends hvM
    have haM := hc.emits.extends huM
    have hrepresents := hs.emits (hreserved.trans ha.emits)
    have hgrows := (hreserved.trans (ha.emits.trans hc.emits)).grows
    have hexit := ht.stands hM
    have hagain := ha.stands haM
    have hhead : Typed program M last n a.offset [] := by
      refine typed_of_round fun k hk hround => ?_
      refine hc.typed huM hrepresents hexit (hafter.mono hk) ?_
      refine ih hvM (hrepresents.emits hc.emits).openLoop ?_
        ((Method.typed_branch (Scope.hasCode_append hjM).head).2 ⟨_, hagain, hround⟩)
      refine ((hloops.grows hgrows).mono hk).openLoop hexit hagain fun j hj => ?_
      exact ⟨hafter.mono (by omega), hround.mono (by omega)⟩
    rwa [ha.offset] at hhead
  | @doWhileLoop s a v w x t condition body type ha hb hw hx hcomparable ht ih =>
    have hjump := @Scope.emits_append x [] [.branchIf true s.nextLabel]
      (by simp [Instruction.isPlain])
    have hreserved := Scope.emits_reserve s 3
    have hjM := ht.emits.extends hM
    have hxM := hjump.extends hjM
    have hwM := hx.emits.extends hxM
    have hvM := hw.emits.extends hwM
    have haM := hb.grows.extends hvM
    have hrepresents := hs.emits (hreserved.trans ha.emits)
    have hgrows := (hreserved.trans ha.emits).grows
    have hrepresents' := (hb.represents hvM hrepresents.openLoop).closeLoop.emits hw.emits
    have hexit := ht.stands hM
    have hnext := hw.stands hwM
    have hagain := ha.stands haM
    have hhead : Typed program M last n a.offset [] := by
      refine typed_of_round fun k hk hround => ?_
      have hlast : Typed program M last (k + 1) x.offset [type.kind] := by
        have hend := hafter.mono (Nat.le_of_lt hk)
        rw [ht.offset, Scope.offset_append] at hend
        exact (Method.typed_branchIf (Scope.hasCode_append hjM).head).2
          ⟨type.kind, [], _, rfl, hagain, hround, hend⟩
      have htest : Typed program M last (k + 1) w.offset [] := hx.typed hxM hrepresents' trivial
        (by rwa [Emission.kinds_value (CType.isVoid_of_isComparable hcomparable)])
      refine ih hvM hrepresents.openLoop ?_ (hw.offset ▸ htest)
      refine ((hloops.grows hgrows).mono hk).openLoop hexit hnext fun j hj => ?_
      exact ⟨hafter.mono (by omega), htest.mono (by omega)⟩
    rwa [ha.offset] at hhead
  | @forLoop s b a u v w x t start condition update body hstart ha hc hb hw hx ht ihstart ihbody =>
    have hjump := @Scope.emits_append x [] [.branch b.nextLabel] (by simp [Instruction.isPlain])
    have hreserved := Scope.emits_reserve b 3
    have hjM := ht.emits.extends hM
    have hxM := hjump.extends hjM
    have hwM := hx.emits.extends hxM
    have hvM := hw.emits.extends hwM
    have huM := hb.grows.extends hvM
    have haM := hc.emits.extends huM
    have hbM := (hreserved.trans ha.emits).extends haM
    have hrepresents := (hstart.represents hbM hs.openBlock).emits (hreserved.trans ha.emits)
    have hgrows := (hreserved.trans (ha.emits.trans hc.emits)).grows
    have hopened := (hrepresents.emits hc.emits).openLoop (l := ⟨b.nextLabel + 2, b.nextLabel + 1⟩)
    have hrepresents' := (hb.represents hvM hopened).closeLoop.emits hw.emits
    have hexit := ht.stands hM
    have hnext := hw.stands hwM
    have hagain := ha.stands haM
    have hbloops : b.LoopsTyped program M last n :=
      Scope.LoopsTyped.grows (s := s.openBlock) hloops hstart.grows
    have hhead : Typed program M last n a.offset [] := by
      refine typed_of_round fun k hk hround => ?_
      have hlast : Typed program M last (k + 1) x.offset [] :=
        (Method.typed_branch (Scope.hasCode_append hjM).head).2 ⟨_, hagain, hround⟩
      have hupdate := hx.typed hxM hrepresents' hlast
      refine hc.typed huM hrepresents hexit (hafter.mono hk) ?_
      refine ihbody hvM hopened ?_ (hw.offset ▸ hupdate)
      refine ((hbloops.grows hgrows).mono hk).openLoop hexit hnext fun j hj => ?_
      exact ⟨hafter.mono (by omega), hupdate.mono (by omega)⟩
    rw [ha.offset] at hhead
    exact ihstart hbM hs.openBlock hloops hhead
  | @exitLoop s labels outer location hl =>
    obtain ⟨offset, ho, htyped⟩ := hloops labels (by rw [hl]; exact List.mem_cons_self) _ (.inl rfl)
    cases n with
    | zero => trivial
    | succ n =>
      exact (Method.typed_branch (Scope.hasCode_append hM).head).2
        ⟨offset, ho, htyped n (Nat.lt_succ_self n)⟩
  | @nextRound s labels outer location hl =>
    obtain ⟨offset, ho, htyped⟩ := hloops labels (by rw [hl]; exact List.mem_cons_self) _ (.inr rfl)
    cases n with
    | zero => trivial
    | succ n =>
      exact (Method.typed_branch (Scope.hasCode_append hM).head).2
        ⟨offset, ho, htyped n (Nat.lt_succ_self n)⟩
  | ret hv =>
    have hgiven : M.givenKinds = [] := hs.givenKinds.trans (CType.kinds_of_isVoid hv)
    exact ((Method.typed_ret (Scope.hasCode_append hM).head).2 ⟨[], by simp [hgiven]⟩).pred
  | @retValue s u value type location hv he hconv =>
    have hplain : ∀ i ∈ coercion type s.signature.returnType ++ [.ret], i.isPlain = true :=
      List.forall_mem_append.2 ⟨isPlain_coercion, by simp [Instruction.isPlain]⟩
    have hcode := Scope.hasCode_append hM
    have hgiven := hs.givenKinds.trans (CType.kinds_of_not_isVoid hv)
    have hret : Typed program M last (n + 1) (u.offset + (coercion type s.signature.returnType).length)
        [s.signature.returnType.kind] :=
      (Method.typed_ret hcode.right.head).2 ⟨[], by simp [hgiven]⟩
    have hcoerce := (turns_coercion (d := []) hconv).typed hcode.left hret.pred
    exact he.typed ((Scope.emits_append _ _ hplain).extends hM) hs trivial
      (by rwa [Emission.kinds_value (hconv.isVoid hv)])

end Body.Code

end ManagedC
