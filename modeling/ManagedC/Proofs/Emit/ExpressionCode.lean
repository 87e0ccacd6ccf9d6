import ManagedC.Compile.Expressions
import ManagedC.Proofs.Emit.Straight

/-!
# What the code of expressions consists of

`Emission.Code` says which code an expression becomes, one constructor for each form of expression:
the code of its parts, the instructions between them and the labels bound on the way. What is proved
about compiled code is proved by induction on this relation, or by taking it apart along with a run
of the source. Main statements: whatever the compiler emits for an expression is its code
(`Expression.code_compile`), and an expression only adds to the method under construction
(`Emission.Code.emits`).
-/

namespace ManagedC

open Yields Emit

/-- Values of one type can be turned into values of the other. A pointer never becomes a number. -/
def CType.Convertible (source target : CType) : Prop :=
  source = target ∨ source.isComparable = true ∧ target.isComparable = true ∧
    (target.isInteger = true → source.isInteger = true)

namespace LogicalOp

/-- The truth value of an operand that decides. -/
def decisive : LogicalOp → Bool
  | .and => false
  | .or => true

/-- The value if an operand decides. -/
def decidedValue : LogicalOp → Int32
  | .and => 0
  | .or => 1

end LogicalOp

/-- What the code of a part of an expression is for. -/
inductive Emission where
  /-- The value of an expression, of a type. -/
  | value (e : Expression) (type : CType)
  /-- The address of what an expression designates, which has a type. -/
  | address (e : Expression) (type : CType)
  /-- The values of arguments, each converted to the type of its parameter. -/
  | arguments (es : List Expression) (types : List CType)

/-- The code of an expression leads from one scope to another. -/
inductive Emission.Code : Scope → Emission → Scope → Prop where
  /-- A literal that fits 32 bits. -/
  | intLiteral {s : Scope} {span : Span} {value : Int64} :
    value.toInt32.toInt64 = value →
    Code s (.value (.intLiteral span value) .int) (s.append [] [.constInt32 value.toInt32])
  /-- A literal that does not. -/
  | longLiteral {s : Scope} {span : Span} {value : Int64} :
    value.toInt32.toInt64 ≠ value →
    Code s (.value (.intLiteral span value) .long) (s.append [] [.constInt64 value])
  | identifier {s : Scope} {span : Span} {name : String} {v : Variable} :
    s.findVariable? name = some v →
    Code s (.value (.identifier span name) v.type) (s.append [] [v.load])
  /-- Two operands of which the first may decide. -/
  | logical {s u v w t : Scope} {span : Span} {op : LogicalOp} {left right : Expression}
      {leftType rightType : CType} :
    Code (s.reserve 2) (.value left leftType) u → leftType.isComparable = true →
    Code (u.append [] [.branchIf op.decisive s.nextLabel]) (.value right rightType) v →
    rightType.isComparable = true →
    (v.append [] [.branchIf op.decisive s.nextLabel, .constInt32 (1 - op.decidedValue),
      .branch (s.nextLabel + 1)]).Binds s.nextLabel w →
    (w.append [] [.constInt32 op.decidedValue]).Binds (s.nextLabel + 1) t →
    Code s (.value (.binary span (.logical op) left right) .int) t
  /-- Two operands and an operator. -/
  | binary {s u v : Scope} {span : Span} {op : BinaryOp} {left right : Expression}
      {leftType rightType type : CType} {ts : List TargetType} {code : List Instruction} :
    Code s (.value left leftType) u → Code u (.value right rightType) v →
    OperatorCode v.nextSlot op leftType rightType ts code type →
    Code s (.value (.binary span op left right) type) (v.append ts code)
  /-- The negative of a number. -/
  | negate {s u : Scope} {span : Span} {operand : Expression} {type : CType} :
    Code s (.value operand type) u → type.isInteger = true →
    Code s (.value (.unary span .negate operand) (CType.arithmeticResult type type))
      (u.append [] [.neg])
  /-- A number with every bit flipped. -/
  | bitNot {s u : Scope} {span : Span} {operand : Expression} {type : CType} :
    Code s (.value operand type) u → type.isInteger = true →
    Code s (.value (.unary span .bitNot operand) (CType.arithmeticResult type type))
      (u.append [] [.not])
  /-- A truth value turned around. -/
  | logicalNot {s u : Scope} {span : Span} {operand : Expression} {type : CType} :
    Code s (.value operand type) u → type.isComparable = true →
    Code s (.value (.unary span .logicalNot operand) .int)
      (u.append [] [.constInt32 0, .compare .ceq])
  /-- What is at an address. -/
  | load {s u : Scope} {e : Expression} {type : CType} {stored : TargetType} :
    Code s (.address e type) u → type.target = .ok stored →
    Code s (.value e type) (u.append [] [.load stored])
  /-- Something assigned to a variable. -/
  | assign {s u : Scope} {span span' : Span} {name : String} {value : Expression} {v : Variable}
      {type : CType} :
    s.findVariable? name = some v → Code s (.value value type) u → type.Convertible v.type →
    Code s (.value (.assignment span none (.identifier span' name) value) v.type)
      (u.append [] (coercion type v.type ++ [.dup, v.store]))
  /-- A variable combined with something. -/
  | update {s u : Scope} {span span' : Span} {name : String} {value : Expression} {v : Variable}
      {op : BinaryOp} {valueType type : CType} {ts : List TargetType} {code : List Instruction} :
    s.findVariable? name = some v → Code (s.append [] [v.load]) (.value value valueType) u →
    OperatorCode u.nextSlot op v.type valueType ts code type → type.Convertible v.type →
    Code s (.value (.assignment span (some op) (.identifier span' name) value) v.type)
      (u.append ts (code ++ coercion type v.type ++ [.dup, v.store]))
  /-- Something assigned to what is at an address. -/
  | assignThrough {s u v : Scope} {span : Span} {target value : Expression} {element type : CType}
      {stored : TargetType} :
    Code s (.address target element) u → element.target = .ok stored →
    Code u (.value value type) v → type.Convertible element →
    Code s (.value (.assignment span none target value) element)
      (v.append [stored] (coercion type element ++
        [.dup, .storeLocal v.nextSlot, .store stored, .loadLocal v.nextSlot]))
  /-- What is at an address combined with something. -/
  | updateThrough {s u v w : Scope} {span : Span} {target value : Expression} {op : BinaryOp}
      {element valueType type : CType} {stored : TargetType} {ts : List TargetType}
      {code : List Instruction} :
    Code s (.address target element) u → element.target = .ok stored →
    Code (u.append [] [.dup, .load stored]) (.value value valueType) v →
    OperatorCode v.nextSlot op element valueType ts code type → type.Convertible element →
    w = v.append ts code →
    Code s (.value (.assignment span (some op) target value) element)
      (w.append [stored] (coercion type element ++
        [.dup, .storeLocal w.nextSlot, .store stored, .loadLocal w.nextSlot]))
  | call {s u : Scope} {span span' : Span} {name : String} {arguments : List Expression}
      {signature : FunctionSignature} :
    s.findFunction? name = some signature →
    (signature.parameters.getD []).length = arguments.length →
    Code s (.arguments arguments (signature.parameters.getD [])) u →
    Code s (.value (.call span (.identifier span' name) arguments) signature.returnType)
      (u.append [] [.call signature.method])
  /-- The address of an element. -/
  | subscript {s u v : Scope} {span : Span} {array index : Expression}
      {arrayType indexType element : CType} {ts : List TargetType} {code : List Instruction} :
    Code s (.value array arrayType) u → Code u (.value index indexType) v →
    OperatorCode v.nextSlot (.arithmetic .add) arrayType indexType ts code (.pointer element) →
    element.isVoid = false →
    Code s (.address (.subscript span array index) element) (v.append ts code)
  /-- The value of a pointer is the address of what it points to. -/
  | dereference {s t : Scope} {span : Span} {pointer : Expression} {element : CType} :
    Code s (.value pointer (.pointer element)) t → element.isVoid = false →
    Code s (.address (.unary span .dereference pointer) element) t
  | noArguments {s : Scope} : Code s (.arguments [] []) s
  /-- An argument, and those after it. -/
  | argument {s u t : Scope} {e : Expression} {es : List Expression} {type parameter : CType}
      {types : List CType} :
    Code s (.value e type) u → type.Convertible parameter →
    Code (u.append [] (coercion type parameter)) (.arguments es types) t →
    Code s (.arguments (e :: es) (parameter :: types)) t

namespace Emit

variable {s t : Scope}

theorem yields_condition {location : Location} {operand : Emit CType} {u : Unit}
    (h : Yields (condition location operand) s u t) :
    ∃ type, Yields operand s type t ∧ type.isComparable = true := by
  unfold condition at h
  rw [bind_iff] at h
  obtain ⟨type, v, ho, h⟩ := h
  cases hf : type.isFloating with
  | true =>
    simp only [hf, if_true, bind_iff, not_yields_missing, false_and, exists_false] at h
  | false =>
    simp only [hf, Bool.false_eq_true, if_false] at h
    split at h
    · exact absurd h not_yields_badOperands
    · rename_i hs
      obtain ⟨-, rfl⟩ := pure_iff.1 h
      refine ⟨type, ho, ?_⟩
      unfold CType.isComparable
      cases hi : type.isInteger <;> cases hp : type.isPointer <;> simp_all

theorem yields_shortCircuit {op : LogicalOp} {left right : Emit Unit} {type : CType}
    (h : Yields (shortCircuit op left right) s type t) :
    ∃ u v w, Yields left (s.reserve 2) () u ∧
      Yields right (u.append [] [.branchIf op.decisive s.nextLabel]) () v ∧
      (v.append [] [.branchIf op.decisive s.nextLabel, .constInt32 (1 - op.decidedValue),
        .branch (s.nextLabel + 1)]).Binds s.nextLabel w ∧
      (w.append [] [.constInt32 op.decidedValue]).Binds (s.nextLabel + 1) t ∧ type = .int := by
  unfold shortCircuit at h
  simp only [bind_iff, yields_newLabel, yields_instr, pure_iff] at h
  obtain ⟨_, _, ⟨rfl, rfl⟩, _, _, ⟨rfl, rfl⟩, h⟩ := h
  cases op
  all_goals
    dsimp only at h
    obtain ⟨_, u, hl, _, _, rfl, _, v, hr, _, _, rfl, _, _, rfl, _, _, rfl, _, w, hw, _, _, rfl,
      _, _, ht, rfl, rfl⟩ := h
    simp only [Scope.append_append, Scope.reserve_reserve] at hl hr hw ht
    exact ⟨u, v, w, hl, hr, yields_mark hw, yields_mark ht, rfl⟩

theorem yields_address {location : Location} {pointer : Emit CType} {element : CType}
    (h : Yields (address location pointer) s element t) :
    Yields pointer s (.pointer element) t ∧ element.isVoid = false := by
  unfold address at h
  rw [bind_iff] at h
  obtain ⟨type, u, hp, h⟩ := h
  split at h
  · split at h
    · exact absurd h not_yields_badOperands
    · rename_i hv
      obtain ⟨rfl, rfl⟩ := pure_iff.1 h
      exact ⟨hp, by simpa using hv⟩
  · exact absurd h not_yields_badOperands

theorem yields_elementAddress {location : Location} {array index : Emit CType} {element : CType}
    (h : Yields (elementAddress location array index) s element t) :
    ∃ arrayType indexType u v ts code, Yields array s arrayType u ∧ Yields index u indexType v ∧
      OperatorCode v.nextSlot (.arithmetic .add) arrayType indexType ts code (.pointer element) ∧
      t = v.append ts code ∧ element.isVoid = false := by
  unfold elementAddress at h
  simp only [bind_iff] at h
  obtain ⟨left, u, hl, right, v, hr, h⟩ := h
  split at h
  · rw [bind_iff] at h
    obtain ⟨type, w, hb, h⟩ := h
    obtain ⟨ts, code, rfl, hcode⟩ := yields_applyBinary hb
    split at h
    · split at h
      · exact absurd h not_yields_badOperands
      · rename_i hv
        obtain ⟨rfl, rfl⟩ := pure_iff.1 h
        exact ⟨left, right, u, v, ts, code, hl, hr, hcode, rfl, by simpa using hv⟩
    · exact absurd h not_yields_badOperands
  · exact absurd h not_yields_badOperands

theorem yields_loadThrough {type element : CType} {location : Location}
    (h : Yields (loadThrough element location) s type t) :
    ∃ stored, element.target = .ok stored ∧ type = element ∧ t = s.append [] [.load stored] := by
  unfold loadThrough at h
  simp only [bind_iff, yields_instr, pure_iff] at h
  obtain ⟨stored, _, hr, _, _, rfl, rfl, rfl⟩ := h
  obtain ⟨hs, rfl⟩ := yields_represent hr
  exact ⟨stored, hs, rfl, rfl⟩

/-- Applying an instruction to an integer. -/
theorem yields_arithmetic {op : UnaryOp} {location : Location} {operand : Emit CType}
    {i : Instruction} {type : CType}
    (h : Yields (applyUnary.arithmetic op location operand i) s type t) :
    ∃ operandType u, Yields operand s operandType u ∧ operandType.isInteger = true ∧
      type = CType.arithmeticResult operandType operandType ∧ t = u.append [] [i] := by
  unfold applyUnary.arithmetic at h
  rw [bind_iff] at h
  obtain ⟨operandType, u, ho, h⟩ := h
  cases hi : operandType.isInteger with
  | false =>
    simp only [hi, Bool.not_false, if_true, bind_iff, not_yields_badOperands, false_and,
      exists_false] at h
  | true =>
    simp only [hi, Bool.not_true, Bool.false_eq_true, if_false, bind_iff, yields_instr,
      pure_iff] at h
    obtain ⟨_, _, rfl, rfl, rfl⟩ := h
    exact ⟨operandType, u, ho, hi, rfl, rfl⟩

/-- The end of an assignment through an address, where the value is on top of the stack. -/
theorem yields_storeThrough {stored : TargetType} {element type : CType}
    (h : Yields (do
      let temporary ← addTemporary stored
      instr .dup
      instr (.storeLocal temporary)
      instr (.store stored)
      instr (.loadLocal temporary)
      return element) s type t) :
    type = element ∧ t = s.append [stored]
      [.dup, .storeLocal s.nextSlot, .store stored, .loadLocal s.nextSlot] := by
  simp only [bind_iff, yields_instr, pure_iff] at h
  obtain ⟨slot, _, hslot, _, _, rfl, _, _, rfl, _, _, rfl, _, _, rfl, rfl, rfl⟩ := h
  obtain ⟨rfl, rfl⟩ := yields_addTemporary hslot
  refine ⟨rfl, ?_⟩
  simp only [Scope.append_append]
  rfl

/-- An assignment through an address emits the address, the value and the store. -/
theorem yields_assignThrough {op : Option BinaryOp} {target value : Emit CType}
    {location : Location} {type : CType}
    (h : Yields (assignThrough op target location value) s type t) :
    ∃ u stored, Yields target s type u ∧ type.target = .ok stored ∧
      ((op = none ∧ ∃ v valueType, Yields value u valueType v ∧ valueType.Convertible type ∧
        t = v.append [stored] (coercion valueType type ++
          [.dup, .storeLocal v.nextSlot, .store stored, .loadLocal v.nextSlot])) ∨
      ∃ o v w valueType resultType ts code, op = some o ∧
        Yields value (u.append [] [.dup, .load stored]) valueType v ∧
        OperatorCode v.nextSlot o type valueType ts code resultType ∧
        resultType.Convertible type ∧ w = v.append ts code ∧
        t = w.append [stored] (coercion resultType type ++
          [.dup, .storeLocal w.nextSlot, .store stored, .loadLocal w.nextSlot])) := by
  unfold assignThrough at h
  rw [bind_iff] at h
  obtain ⟨element, u, htarget, h⟩ := h
  rw [bind_iff] at h
  obtain ⟨stored, _, hr, h⟩ := h
  obtain ⟨hs, rfl⟩ := yields_represent hr
  have hstore : ∀ {x : Scope} {resultType : CType}, Yields (do
        coerce resultType element location
        let temporary ← addTemporary stored
        instr .dup
        instr (.storeLocal temporary)
        instr (.store stored)
        instr (.loadLocal temporary)
        return element) x type t →
      type = element ∧ resultType.Convertible element ∧
        t = x.append [stored] (coercion resultType element ++
          [.dup, .storeLocal x.nextSlot, .store stored, .loadLocal x.nextSlot]) := by
    intro x resultType h
    rw [bind_iff] at h
    obtain ⟨_, _, hc, h⟩ := h
    obtain ⟨rfl, hconv⟩ := yields_coerce hc
    obtain ⟨rfl, rfl⟩ := yields_storeThrough h
    exact ⟨rfl, hconv, by rw [Scope.append_append]; rfl⟩
  cases op with
  | none =>
    rw [bind_iff] at h
    obtain ⟨valueType, v, hv, h⟩ := h
    obtain ⟨rfl, hconv, rfl⟩ := hstore h
    exact ⟨_, stored, htarget, hs, .inl ⟨rfl, v, valueType, hv, hconv, rfl⟩⟩
  | some op =>
    simp only [bind_iff (x := instr _), yields_instr] at h
    obtain ⟨_, _, rfl, _, _, rfl, h⟩ := h
    rw [bind_iff] at h
    obtain ⟨valueType, v, hv, h⟩ := h
    rw [bind_iff] at h
    obtain ⟨resultType, w, hb, h⟩ := h
    obtain ⟨ts, code, rfl, hcode⟩ := yields_applyBinary hb
    obtain ⟨rfl, hconv, rfl⟩ := hstore h
    rw [Scope.append_append] at hv
    exact ⟨_, stored, htarget, hs, .inr ⟨op, v, _, valueType, resultType, ts, code, rfl, hv, hcode,
      hconv, rfl, rfl⟩⟩

/-- An assignment to a variable emits the value and the store. -/
theorem yields_assignVariable {op : Option BinaryOp} {name : String} {value : Emit CType}
    {location : Location} {type : CType}
    (h : Yields (assignVariable op name location value) s type t) :
    ∃ v, s.findVariable? name = some v ∧ type = v.type ∧
      ((op = none ∧ ∃ u valueType, Yields value s valueType u ∧ valueType.Convertible v.type ∧
        t = u.append [] (coercion valueType v.type ++ [.dup, v.store])) ∨
      ∃ o u valueType resultType ts code, op = some o ∧
        Yields value (s.append [] [v.load]) valueType u ∧
        OperatorCode u.nextSlot o v.type valueType ts code resultType ∧
        resultType.Convertible v.type ∧
        t = u.append ts (code ++ coercion resultType v.type ++ [.dup, v.store])) := by
  unfold assignVariable at h
  rw [bind_iff] at h
  obtain ⟨v, _, hv, h⟩ := h
  obtain ⟨hv, rfl⟩ := yields_lookupVariable hv
  have hstore : ∀ {x : Scope} {resultType : CType}, Yields (do
        coerce resultType v.type location
        instr .dup
        instr v.store
        return v.type) x type t →
      type = v.type ∧ resultType.Convertible v.type ∧
        t = x.append [] (coercion resultType v.type ++ [.dup, v.store]) := by
    intro x resultType h
    simp only [bind_iff, yields_instr, pure_iff] at h
    obtain ⟨_, _, hc, _, _, rfl, _, _, rfl, rfl, rfl⟩ := h
    obtain ⟨rfl, hconv⟩ := yields_coerce hc
    exact ⟨rfl, hconv, by simp only [Scope.append_append]; simp⟩
  cases op with
  | none =>
    rw [bind_iff] at h
    obtain ⟨valueType, u, hvalue, h⟩ := h
    obtain ⟨rfl, hconv, rfl⟩ := hstore h
    exact ⟨v, hv, rfl, .inl ⟨rfl, u, valueType, hvalue, hconv, rfl⟩⟩
  | some op =>
    simp only [bind_iff (x := instr _), yields_instr] at h
    obtain ⟨_, _, rfl, h⟩ := h
    rw [bind_iff] at h
    obtain ⟨valueType, u, hvalue, h⟩ := h
    rw [bind_iff] at h
    obtain ⟨resultType, w, hb, h⟩ := h
    obtain ⟨ts, code, rfl, hcode⟩ := yields_applyBinary hb
    obtain ⟨rfl, hconv, rfl⟩ := hstore h
    exact ⟨v, hv, rfl, .inr ⟨op, u, valueType, resultType, ts, code, rfl, hvalue, hcode, hconv,
      by simp⟩⟩

/-- A call emits the arguments and the call. -/
theorem yields_callFunction {name : String} {count : Nat} {arguments : List CType → Emit Unit}
    {location : Location} {type : CType}
    (h : Yields (callFunction name count arguments location) s type t) :
    ∃ signature u, s.findFunction? name = some signature ∧
      (signature.parameters.getD []).length = count ∧
      Yields (arguments (signature.parameters.getD [])) s () u ∧
      type = signature.returnType ∧ t = u.append [] [.call signature.method] := by
  unfold callFunction at h
  simp only [bind_iff (x := get), get_iff] at h
  obtain ⟨_, _, ⟨rfl, rfl⟩, h⟩ := h
  split at h
  · exact absurd h not_yields_refuse
  · rename_i s _ signature hf
    have hcall : ∀ {parameters : List CType}, Yields (do
          if parameters.length ≠ count then
            refuse (.argumentCount name parameters.length count) location
          arguments parameters
          instr (.call signature.method)
          return signature.returnType) s type t →
        parameters.length = count ∧ ∃ u, Yields (arguments parameters) s () u ∧
          type = signature.returnType ∧ t = u.append [] [.call signature.method] := by
      intro parameters h
      by_cases hc : parameters.length = count
      · simp only [hc, ne_eq, not_true_eq_false, if_false, bind_iff, yields_instr, pure_iff] at h
        obtain ⟨_, u, ha, _, _, rfl, rfl, rfl⟩ := h
        exact ⟨hc, u, ha, rfl, rfl⟩
      · simp only [hc, ne_eq, not_false_eq_true, if_true, bind_iff, not_yields_refuse, false_and,
          exists_false] at h
    cases hp : signature.parameters with
    | some parameters =>
      rw [hp] at h
      obtain ⟨hc, u, ha, rfl, rfl⟩ := hcall h
      exact ⟨signature, u, hf, by rw [hp]; exact hc, by rw [hp]; exact ha, rfl, rfl⟩
    | none =>
      rw [hp] at h
      by_cases hzero : count = 0
      · subst hzero
        rw [if_pos rfl] at h
        obtain ⟨hc, u, ha, rfl, rfl⟩ := @hcall [] h
        exact ⟨signature, u, hf, by rw [hp]; exact hc, by rw [hp]; exact ha, rfl, rfl⟩
      · simp only [hzero, if_false, bind_iff, not_yields_missing, false_and, exists_false] at h

end Emit

namespace Expression

mutual

/-- What is emitted for an expression is its code. -/
theorem code_compile : ∀ (e : Expression) {s t : Scope} {type : CType},
    Yields e.compile s type t → Emission.Code s (.value e type) t
  | .intLiteral span value, s, t, type, h => by
    unfold compile at h
    split at h
    · rename_i hv
      simp only [bind_iff, yields_instr, pure_iff] at h
      obtain ⟨_, _, rfl, rfl, rfl⟩ := h
      exact .intLiteral hv
    · rename_i hv
      simp only [bind_iff, yields_instr, pure_iff] at h
      obtain ⟨_, _, rfl, rfl, rfl⟩ := h
      exact .longLiteral hv
  | .identifier span name, s, t, type, h => by
    unfold compile at h
    simp only [bind_iff, yields_instr, pure_iff] at h
    obtain ⟨v, _, hv, _, _, rfl, rfl, rfl⟩ := h
    obtain ⟨hv, rfl⟩ := yields_lookupVariable hv
    exact .identifier hv
  | .binary span op left right, s, t, type, h => by
    cases op with
    | logical op =>
      unfold compile at h
      obtain ⟨u, v, w, hl, hr, hw, ht, rfl⟩ := yields_shortCircuit h
      obtain ⟨leftType, hl, hlc⟩ := yields_condition hl
      obtain ⟨rightType, hr, hrc⟩ := yields_condition hr
      exact .logical (left.code_compile hl) hlc (right.code_compile hr) hrc hw ht
    | arithmetic op =>
      unfold compile at h
      simp only [bind_iff] at h
      obtain ⟨leftType, u, hl, rightType, v, hr, h⟩ := h
      obtain ⟨ts, code, rfl, hcode⟩ := yields_applyBinary h
      exact .binary (left.code_compile hl) (right.code_compile hr) hcode
    | comparison op =>
      unfold compile at h
      simp only [bind_iff] at h
      obtain ⟨leftType, u, hl, rightType, v, hr, h⟩ := h
      obtain ⟨ts, code, rfl, hcode⟩ := yields_applyBinary h
      exact .binary (left.code_compile hl) (right.code_compile hr) hcode
  | .unary span op operand, s, t, type, h => by
    cases op with
    | negate =>
      unfold compile applyUnary at h
      obtain ⟨operandType, u, ho, hi, rfl, rfl⟩ := yields_arithmetic h
      exact .negate (operand.code_compile ho) hi
    | bitNot =>
      unfold compile applyUnary at h
      obtain ⟨operandType, u, ho, hi, rfl, rfl⟩ := yields_arithmetic h
      exact .bitNot (operand.code_compile ho) hi
    | logicalNot =>
      unfold compile applyUnary at h
      simp only [bind_iff, pure_iff] at h
      obtain ⟨_, u, ho, _, _, hn, rfl, rfl⟩ := h
      obtain ⟨operandType, ho, hc⟩ := yields_condition ho
      rw [yields_negation hn]
      exact .logicalNot (operand.code_compile ho) hc
    | dereference =>
      unfold compile applyUnary at h
      simp only [bind_iff] at h
      obtain ⟨element, u, ho, h⟩ := h
      obtain ⟨ho, hv⟩ := yields_address ho
      obtain ⟨stored, hs, rfl, rfl⟩ := yields_loadThrough h
      exact .load (.dereference (operand.code_compile ho) hv) hs
  | .assignment span op (.identifier span' name) value, s, t, type, h => by
    unfold compile at h
    obtain ⟨v, hv, rfl, ⟨rfl, u, valueType, hvalue, hconv, rfl⟩ |
      ⟨op, u, valueType, resultType, ts, code, rfl, hvalue, hcode, hconv, rfl⟩⟩ :=
      yields_assignVariable h
    · exact .assign hv (value.code_compile hvalue) hconv
    · exact .update hv (value.code_compile hvalue) hcode hconv
  | .assignment span op (.subscript span' array index) value, s, t, type, h => by
    unfold compile at h
    obtain ⟨u, stored, htarget, hs, ⟨rfl, v, valueType, hvalue, hconv, rfl⟩ |
      ⟨op, v, w, valueType, resultType, ts, code, rfl, hvalue, hcode, hconv, rfl, rfl⟩⟩ :=
      yields_assignThrough h
    all_goals
      obtain ⟨arrayType, indexType, x, y, ts', code', harray, hindex, hadd, rfl, hvoid⟩ :=
        yields_elementAddress htarget
      have haddress : Emission.Code s (.address (.subscript span' array index) type) _ :=
        .subscript (array.code_compile harray) (index.code_compile hindex) hadd hvoid
    · exact .assignThrough haddress hs (value.code_compile hvalue) hconv
    · exact .updateThrough haddress hs (value.code_compile hvalue) hcode hconv rfl
  | .assignment span op (.unary span' .dereference pointer) value, s, t, type, h => by
    unfold compile at h
    obtain ⟨u, stored, htarget, hs, ⟨rfl, v, valueType, hvalue, hconv, rfl⟩ |
      ⟨op, v, w, valueType, resultType, ts, code, rfl, hvalue, hcode, hconv, rfl, rfl⟩⟩ :=
      yields_assignThrough h
    all_goals
      obtain ⟨hpointer, hvoid⟩ := yields_address htarget
      have haddress : Emission.Code s (.address (.unary span' .dereference pointer) type) u :=
        .dereference (pointer.code_compile hpointer) hvoid
    · exact .assignThrough haddress hs (value.code_compile hvalue) hconv
    · exact .updateThrough haddress hs (value.code_compile hvalue) hcode hconv rfl
  | .assignment span op (.unary _ .negate pointer) value, s, t, type, h => by
    unfold compile at h
    exact absurd h not_yields_refuse
  | .assignment span op (.unary _ .bitNot pointer) value, s, t, type, h => by
    unfold compile at h
    exact absurd h not_yields_refuse
  | .assignment span op (.unary _ .logicalNot pointer) value, s, t, type, h => by
    unfold compile at h
    exact absurd h not_yields_refuse
  | .assignment span op (.intLiteral _ _) value, s, t, type, h => by
    unfold compile at h
    exact absurd h not_yields_refuse
  | .assignment span op (.binary _ _ _ _) value, s, t, type, h => by
    unfold compile at h
    exact absurd h not_yields_refuse
  | .assignment span op (.assignment _ _ _ _) value, s, t, type, h => by
    unfold compile at h
    exact absurd h not_yields_refuse
  | .assignment span op (.call _ _ _) value, s, t, type, h => by
    unfold compile at h
    exact absurd h not_yields_refuse
  | .call span (.identifier _ name) arguments, s, t, type, h => by
    unfold compile at h
    obtain ⟨signature, u, hf, hcount, ha, rfl, rfl⟩ := yields_callFunction h
    exact .call hf hcount (code_compileArguments arguments hcount ha)
  | .call span (.intLiteral _ _) arguments, s, t, type, h => by
    unfold compile at h
    exact absurd h not_yields_missing
  | .call span (.binary _ _ _ _) arguments, s, t, type, h => by
    unfold compile at h
    exact absurd h not_yields_missing
  | .call span (.unary _ _ _) arguments, s, t, type, h => by
    unfold compile at h
    exact absurd h not_yields_missing
  | .call span (.assignment _ _ _ _) arguments, s, t, type, h => by
    unfold compile at h
    exact absurd h not_yields_missing
  | .call span (.call _ _ _) arguments, s, t, type, h => by
    unfold compile at h
    exact absurd h not_yields_missing
  | .call span (.subscript _ _ _) arguments, s, t, type, h => by
    unfold compile at h
    exact absurd h not_yields_missing
  | .subscript span array index, s, t, type, h => by
    unfold compile at h
    simp only [bind_iff] at h
    obtain ⟨element, u, htarget, h⟩ := h
    obtain ⟨arrayType, indexType, v, w, ts, code, ha, hi, hcode, rfl, hv⟩ :=
      yields_elementAddress htarget
    obtain ⟨stored, hs, rfl, rfl⟩ := yields_loadThrough h
    exact .load (.subscript (array.code_compile ha) (index.code_compile hi) hcode hv) hs

/-- What is emitted for arguments is their code. -/
theorem code_compileArguments : ∀ (es : List Expression) {s t : Scope} {types : List CType}
    {u : Unit}, types.length = es.length → Yields (compileArguments es types) s u t →
    Emission.Code s (.arguments es types) t
  | [], s, t, [], u, _, h => by
    unfold compileArguments at h
    obtain ⟨-, rfl⟩ := pure_iff.1 h
    exact .noArguments
  | e :: es, s, t, parameter :: types, u, hl, h => by
    unfold compileArguments at h
    simp only [bind_iff] at h
    obtain ⟨type, v, he, _, w, hc, h⟩ := h
    obtain ⟨rfl, hconv⟩ := yields_coerce hc
    exact .argument (e.code_compile he) hconv (code_compileArguments es (by simpa using hl) h)

end

end Expression

/-! ## Only plain code is added -/

theorem isPlain_coercion {source target : CType} : ∀ i ∈ coercion source target, i.isPlain = true := by
  unfold coercion
  grind [Instruction.isPlain]

theorem OperatorCode.isPlain {slot : UInt16} {op : BinaryOp} {left right type : CType}
    {ts : List TargetType} {code : List Instruction}
    (h : OperatorCode slot op left right ts code type) : ∀ i ∈ code, i.isPlain = true := by
  cases h <;> grind [Instruction.isPlain, unification, comparisonCode, scaling, unscaling]

theorem Variable.isPlain_load (v : Variable) : ∀ i ∈ [v.load], i.isPlain = true := by
  obtain ⟨_ | _, _⟩ := v <;> simp [load, Instruction.isPlain]

theorem Variable.isPlain_store (v : Variable) : ∀ i ∈ [.dup, v.store], i.isPlain = true := by
  obtain ⟨_ | _, _⟩ := v <;> simp [store, Instruction.isPlain]

/-- An expression only adds to the method under construction. -/
theorem Emission.Code.emits {s t : Scope} {k : Emission} (h : Code s k t) : s.Emits t := by
  induction h with
  | intLiteral | longLiteral => exact Scope.emits_append _ _ (by simp [Instruction.isPlain])
  | identifier => exact Scope.emits_append _ _ (Variable.isPlain_load _)
  | logical _ _ _ _ hw ht ihl ihr =>
    refine (Scope.emits_reserve _ 2).trans (ihl.trans (.trans (Scope.emits_append _ _ ?_)
      (ihr.trans (.trans (Scope.emits_append _ _ ?_) (hw.emits.trans (.trans
        (Scope.emits_append _ _ ?_) ht.emits))))))
    all_goals simp [Instruction.isPlain]
  | binary _ _ hcode ihl ihr => exact ihl.trans (ihr.trans (Scope.emits_append _ _ hcode.isPlain))
  | negate _ _ ih | bitNot _ _ ih | logicalNot _ _ ih | load _ _ ih =>
    exact ih.trans (Scope.emits_append _ _ (by simp [Instruction.isPlain]))
  | call _ _ _ ih => exact ih.trans (Scope.emits_append _ _ (by simp [Instruction.isPlain]))
  | assign _ _ _ ih =>
    exact ih.trans (Scope.emits_append _ _ (List.forall_mem_append.2
      ⟨isPlain_coercion, Variable.isPlain_store _⟩))
  | update _ _ hcode _ ih =>
    exact (Scope.emits_append _ _ (Variable.isPlain_load _)).trans (ih.trans
      (Scope.emits_append _ _ (List.forall_mem_append.2
        ⟨List.forall_mem_append.2 ⟨hcode.isPlain, isPlain_coercion⟩, Variable.isPlain_store _⟩)))
  | assignThrough _ _ _ _ iha ihv =>
    exact iha.trans (ihv.trans (Scope.emits_append _ _ (List.forall_mem_append.2
      ⟨isPlain_coercion, by simp [Instruction.isPlain]⟩)))
  | updateThrough _ _ _ hcode _ hw iha ihv =>
    subst hw
    refine iha.trans ((Scope.emits_append _ _ ?_).trans (ihv.trans ((Scope.emits_append _ _
      hcode.isPlain).trans (Scope.emits_append _ _ (List.forall_mem_append.2
      ⟨isPlain_coercion, ?_⟩)))))
    all_goals simp [Instruction.isPlain]
  | subscript _ _ hcode _ iha ihi => exact iha.trans (ihi.trans (Scope.emits_append _ _ hcode.isPlain))
  | dereference _ _ ih => exact ih
  | noArguments => exact .refl _
  | argument _ _ _ ihe ih => exact ihe.trans (.trans (Scope.emits_append _ _ isPlain_coercion) ih)

end ManagedC
