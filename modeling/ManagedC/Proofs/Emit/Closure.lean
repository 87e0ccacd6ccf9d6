import ManagedC.Proofs.Emit.Growth

/-!
# Properties that emitted code has part by part

Whatever a property of computations says, if it passes from the parts of a computation to the whole
(`Emit.Closed`) then the code of every expression and of every body has it
(`Emit.Closed.compileExpression`, `Emit.Closed.compileBody`), also where emitting it fails. What there is
to say about jumps and blocks is left to the property. An operator of a compound assignment that is a
logical one makes the compiler fail with a fault of its own, so that faults are a part of the property too.
-/

namespace ManagedC

/-! ## The operators of compound assignments -/

namespace Expression

mutual

/-- The operators of the compound assignments in an expression. -/
def compounds : Expression → List BinaryOp
  | .intLiteral _ _ => []
  | .identifier _ _ => []
  | .binary _ _ left right => left.compounds ++ right.compounds
  | .unary _ _ operand => operand.compounds
  | .assignment _ op target value => op.toList ++ target.compounds ++ value.compounds
  | .call _ function arguments => function.compounds ++ argumentCompounds arguments
  | .subscript _ array index => array.compounds ++ index.compounds

/-- The operators of the compound assignments in arguments. -/
def argumentCompounds : List Expression → List BinaryOp
  | [] => []
  | argument :: arguments => argument.compounds ++ argumentCompounds arguments

end

/-- The operators of the compound assignments in an expression, if there is one. -/
def compounds? (e : Option Expression) : List BinaryOp := e.toList.flatMap compounds

end Expression

namespace Body

mutual

/-- The operators of the compound assignments in a body. -/
def compounds : Body → List BinaryOp
  | .block parts => allCompounds parts
  | .expression e => e.compounds
  | .declare locals => locals.flatMap fun d => Expression.compounds? d.initializer
  | .conditional condition thenBranch none => condition.compounds ++ thenBranch.compounds
  | .conditional condition thenBranch (some elseBranch) =>
    condition.compounds ++ thenBranch.compounds ++ elseBranch.compounds
  | .whileLoop condition body => condition.compounds ++ body.compounds
  | .doWhileLoop body condition => body.compounds ++ condition.compounds
  | .forLoop none condition update body =>
    Expression.compounds? condition ++ Expression.compounds? update ++ body.compounds
  | .forLoop (some start) condition update body =>
    start.compounds ++ Expression.compounds? condition ++ Expression.compounds? update ++ body.compounds
  | .exitLoop _ => []
  | .nextRound _ => []
  | .ret value _ => Expression.compounds? value
  | .empty => []

/-- The operators of the compound assignments in several bodies. -/
def allCompounds : List Body → List BinaryOp
  | [] => []
  | part :: parts => part.compounds ++ allCompounds parts

end

end Body

namespace Emit

/-- The faults are allowed that logical operators lead to where they are the operators of compound
assignments. -/
def Excuses (allowed : CompileError → Prop) (ops : List BinaryOp) : Prop :=
  ∀ op, .logical op ∈ ops → allowed (.internal (.logicalArithmetic op))

theorem Excuses.left {allowed : CompileError → Prop} {ops ops' : List BinaryOp}
    (h : Excuses allowed (ops ++ ops')) : Excuses allowed ops := fun op hop =>
  h op (List.mem_append_left ops' hop)

theorem Excuses.right {allowed : CompileError → Prop} {ops ops' : List BinaryOp}
    (h : Excuses allowed (ops ++ ops')) : Excuses allowed ops' := fun op hop =>
  h op (List.mem_append_right ops hop)

/-- A property of computations that passes from the parts of a computation to the whole. Of the ways to
fail, it may rule out those that are not allowed. -/
structure Closed (allowed : CompileError → Prop) (P : (α : Type) → Emit α → Prop) : Prop where
  refused : ∀ refusal location, allowed (.refused refusal location)
  /-- Breaches of rules are allowed. -/
  misused : ∀ misuse location, allowed (.misused misuse location)
  pure : ∀ {α : Type} (a : α), P α (Pure.pure a)
  /-- A failure that is allowed. -/
  throw : ∀ {α : Type} {e : CompileError}, allowed e → P α (MonadExcept.throw e)
  bind : ∀ {α β : Type} {x : Emit α} {f : α → Emit β}, P α x → (∀ a, P β (f a)) → P β (x >>= f)
  /-- A look at the scope. -/
  get : P Scope MonadState.get
  /-- The type that holds the values of a type. -/
  represent : ∀ type location, P TargetType (Emit.represent type location)
  /-- An instruction that does not jump. -/
  instr : ∀ {i : Instruction}, i.target? = none → P Unit (Emit.instr i)
  /-- A variable without a name. -/
  addTemporary : ∀ type, P UInt16 (Emit.addTemporary type)
  declareLocal : ∀ name type location, P Variable (Emit.declareLocal name type location)
  withBlock : ∀ {x : Emit Unit}, P Unit x → P Unit (Emit.withBlock x)
  /-- Conditions of which the first one that decides counts. -/
  shortCircuit : ∀ op {left right : Emit Unit}, P Unit left → P Unit right →
    P CType (Emit.shortCircuit op left right)
  /-- A choice without an alternative. -/
  conditional : ∀ {condition body : Emit Unit}, P Unit condition → P Unit body →
    P Unit (Emit.conditional condition body)
  /-- A choice between two branches. -/
  choice : ∀ {condition body other : Emit Unit}, P Unit condition → P Unit body → P Unit other →
    P Unit (Emit.choice condition body other)
  /-- A loop that tests before its body. -/
  whileLoop : ∀ {condition body : Emit Unit}, P Unit condition → P Unit body →
    P Unit (Emit.whileLoop condition body)
  /-- A loop that tests after its body. -/
  doWhileLoop : ∀ {body condition : Emit Unit}, P Unit body → P Unit condition →
    P Unit (Emit.doWhileLoop body condition)
  /-- A loop with a start, a test and an update. -/
  forLoop : ∀ {start update body : Emit Unit} {condition : Option (Emit Unit)}, P Unit start →
    (∀ x, condition = some x → P Unit x) → P Unit update → P Unit body →
    P Unit (Emit.forLoop start condition update body)
  /-- The end of a loop. -/
  exitLoop : ∀ location, P Unit (jumpInLoop LoopLabels.exit .breakOutsideLoop location)
  /-- The end of a round. -/
  nextRound : ∀ location, P Unit (jumpInLoop LoopLabels.next .continueOutsideLoop location)

end Emit

namespace Emit.Closed

variable {allowed : CompileError → Prop} {P : (α : Type) → Emit α → Prop} (h : Closed allowed P)
  {α β : Type}

include h

/-! ## Operators -/

/-- Something is done first under a condition. -/
theorem optionally {c : Prop} [Decidable c] {x : Emit α} {rest : Emit β} (hx : P α x)
    (hrest : P β rest) : P β (if c then x >>= fun _ => rest else rest) := by
  split
  · exact h.bind hx fun _ => hrest
  · exact hrest

/-- An answer is dropped. -/
theorem discard {x : Emit α} (hx : P α x) : P Unit (Functor.discard x) := by
  show P Unit ((fun _ => ()) <$> x)
  rw [map_eq_pure_bind]
  exact h.bind hx fun _ => h.pure _

theorem refuse (refusal : Refusal) (location : Location) : P α (Emit.refuse refusal location) :=
  h.throw (h.refused refusal location)

theorem badOperands (fault : OperandFault) (location : Location) :
    P α (Emit.badOperands fault location) := h.refuse _ location

theorem missing (feature : MissingFeature) (location : Location) :
    P α (Emit.missing feature location) :=
  h.bind (h.bind h.get fun _ => h.pure _) fun _ => h.refuse _ _

theorem lookupVariable (name : String) (location : Location) :
    P Variable (Emit.lookupVariable name location) := by
  refine h.bind h.get fun s => ?_
  split
  · exact h.pure _
  · exact h.refuse _ _

theorem load (v : Variable) : P Unit (Emit.instr v.load) := by
  unfold Variable.load
  split <;> exact h.instr rfl

theorem store (v : Variable) : P Unit (Emit.instr v.store) := by
  unfold Variable.store
  split <;> exact h.instr rfl

theorem negation : P Unit Emit.negation := h.bind (h.instr rfl) fun _ => h.instr rfl

theorem comparison (op : ComparisonOp) : P Unit (Emit.comparison op) := by
  refine h.bind (h.instr rfl) fun _ => ?_
  split
  · exact h.negation
  · exact h.pure _

theorem underTop (type : TargetType) {code : Emit Unit} (hcode : P Unit code) :
    P Unit (Emit.underTop type code) :=
  h.bind (h.addTemporary _) fun _ => h.bind (h.instr rfl) fun _ => h.bind hcode fun _ => h.instr rfl

theorem stepSize (pointer : CType) (location : Location) : P Int32 (Emit.stepSize pointer location) := by
  unfold Emit.stepSize
  split
  · split
    · exact h.pure _
    · exact h.badOperands _ _
  · exact h.badOperands _ _

theorem nativeSize (size : Int32) : P Unit (Emit.nativeSize size) :=
  h.bind (h.instr rfl) fun _ => h.instr rfl

theorem scale (size : Int32) : P Unit (Emit.scale size) := by
  refine h.bind (h.instr rfl) fun _ => ?_
  split
  · exact h.bind (h.nativeSize size) fun _ => h.instr rfl
  · exact h.pure _

theorem coerce (source target : CType) (location : Location) :
    P Unit (Emit.coerce source target location) := by
  unfold Emit.coerce
  repeat' split
  all_goals first | exact h.pure _ | exact h.instr rfl | exact h.badOperands _ _

theorem unifyIntegers (left right : CType) : P Unit (Emit.unifyIntegers left right) := by
  have hleft : P Unit
      (if !left.isLong then Emit.underTop .int64 (Emit.instr .convInt64) else Pure.pure ()) := by
    split
    · exact h.underTop _ (h.instr rfl)
    · exact h.pure _
  unfold Emit.unifyIntegers
  split
  · exact h.optionally (h.instr rfl) hleft
  · exact h.pure _

theorem pointerArithmetic (op : ArithmeticOp) (left right : CType) (location : Location) :
    P CType (Emit.pointerArithmetic op left right location) := by
  have hsteps : ∀ op pointer, P CType (Emit.pointerThenSteps op pointer location) := fun op pointer =>
    h.bind (h.stepSize _ _) fun _ => h.bind (h.scale _) fun _ => h.bind (h.instr rfl) fun _ => h.pure _
  have hbehind : ∀ pointer, P CType (Emit.stepsThenPointer pointer location) := fun pointer =>
    h.bind (h.stepSize _ _) fun _ => h.bind (h.represent _ _) fun _ =>
      h.bind (h.underTop _ (h.scale _)) fun _ => h.bind (h.instr rfl) fun _ => h.pure _
  have hdifference : ∀ pointer, P CType (Emit.pointerDifference pointer location) := by
    intro pointer
    refine h.bind (h.stepSize _ _) fun size => h.bind (h.instr rfl) fun _ => ?_
    have hend : P CType (Emit.instr .convInt64 >>= fun _ => Pure.pure CType.long) :=
      h.bind (h.instr rfl) fun _ => h.pure _
    split
    · exact h.bind (h.nativeSize _) fun _ => h.bind (h.instr rfl) fun _ => hend
    · exact hend
  unfold Emit.pointerArithmetic
  repeat' split
  all_goals first | exact hsteps _ _ | exact hbehind _ | exact hdifference _ | exact h.badOperands _ _

theorem integerOperation {op : BinaryOp} (left right : CType)
    (hop : Excuses allowed [op]) : P CType (Emit.integerOperation op left right) := by
  refine h.bind (h.unifyIntegers _ _) fun _ => ?_
  cases op with
  | comparison op => exact h.bind (h.comparison _) fun _ => h.pure _
  | arithmetic op => exact h.bind (h.instr rfl) fun _ => h.pure _
  | logical op => exact h.throw (hop op List.mem_cons_self)

theorem applyBinary {op : BinaryOp} (left right : CType) (location : Location)
    (hop : Excuses allowed [op]) : P CType (Emit.applyBinary op left right location) := by
  have hcompare : ∀ op, P CType (Emit.pointerComparison op left right location) := by
    intro op
    unfold Emit.pointerComparison
    split
    · exact h.bind (h.comparison _) fun _ => h.pure _
    · exact h.badOperands _ _
  unfold Emit.applyBinary
  split
  · exact h.missing _ _
  · split
    · exact h.integerOperation _ _ hop
    · split
      · split
        · exact hcompare _
        · exact h.badOperands _ _
      · exact h.pointerArithmetic _ _ _ _
      · exact h.badOperands _ _

theorem condition {operand : Emit CType} (location : Location) (hoperand : P CType operand) :
    P Unit (Emit.condition location operand) := by
  refine h.bind hoperand fun type => ?_
  have hscalar : P Unit (if !type.isInteger && !type.isPointer then
      Emit.badOperands (.notScalar type) location else Pure.pure ()) := by
    split
    · exact h.badOperands _ _
    · exact h.pure _
  exact h.optionally (h.missing _ _) hscalar

theorem address {pointer : Emit CType} (location : Location) (hpointer : P CType pointer) :
    P CType (Emit.address location pointer) := by
  refine h.bind hpointer fun type => ?_
  repeat' split
  all_goals first | exact h.pure _ | exact h.badOperands _ _

theorem elementAddress {array index : Emit CType} (location : Location) (harray : P CType array)
    (hindex : P CType index) : P CType (Emit.elementAddress location array index) := by
  have hop : Excuses allowed [.arithmetic .add] := fun op hmem => nomatch List.mem_singleton.1 hmem
  refine h.bind harray fun left => h.bind hindex fun right => ?_
  split
  · refine h.bind (h.applyBinary _ _ _ hop) fun type => ?_
    repeat' split
    all_goals first | exact h.pure _ | exact h.badOperands _ _
  · exact h.badOperands _ _

theorem loadThrough (type : CType) (location : Location) :
    P CType (Emit.loadThrough type location) :=
  h.bind (h.represent _ _) fun _ => h.bind (h.instr rfl) fun _ => h.pure _

theorem applyUnary (op : UnaryOp) (location operandLocation : Location) {operand : Emit CType}
    (hoperand : P CType operand) :
    P CType (Emit.applyUnary op location operandLocation operand) := by
  have harithmetic : ∀ i : Instruction, i.target? = none →
      P CType (Emit.applyUnary.arithmetic op location operand i) := by
    intro i hi
    refine h.bind hoperand fun type => ?_
    have hcode : P CType (Emit.instr i >>= fun _ => Pure.pure (CType.arithmeticResult type type)) :=
      h.bind (h.instr hi) fun _ => h.pure _
    exact h.optionally (h.badOperands _ _) hcode
  cases op with
  | dereference => exact h.bind (h.address _ hoperand) fun _ => h.loadThrough _ _
  | logicalNot => exact h.bind (h.condition _ hoperand) fun _ => h.bind h.negation fun _ => h.pure _
  | negate | bitNot => exact harithmetic _ rfl

/-! ## Assignments and calls -/

theorem assignVariable {op : Option BinaryOp} (hop : Excuses allowed op.toList) (name : String)
    (location : Location) {value : Emit CType} (hvalue : P CType value) :
    P CType (Emit.assignVariable op name location value) := by
  refine h.bind (h.lookupVariable _ _) fun v => ?_
  have hstore : ∀ type, P CType (Emit.coerce type v.type location >>= fun _ => Emit.instr .dup >>= fun _ =>
      Emit.instr v.store >>= fun _ => Pure.pure v.type) := fun _ =>
    h.bind (h.coerce _ _ _) fun _ => h.bind (h.instr rfl) fun _ => h.bind (h.store v) fun _ => h.pure _
  cases op with
  | none => exact h.bind hvalue hstore
  | some op =>
    exact h.bind (h.load v) fun _ => h.bind hvalue fun _ => h.bind (h.applyBinary _ _ _ hop) hstore

theorem assignThrough {op : Option BinaryOp} (hop : Excuses allowed op.toList)
    (location : Location) {target value : Emit CType} (htarget : P CType target) (hvalue : P CType value) :
    P CType (Emit.assignThrough op target location value) := by
  refine h.bind htarget fun element => h.bind (h.represent _ _) fun stored => ?_
  have hstore : ∀ type, P CType (Emit.coerce type element location >>= fun _ =>
      Emit.addTemporary stored >>= fun temporary => Emit.instr .dup >>= fun _ =>
      Emit.instr (.storeLocal temporary) >>= fun _ => Emit.instr (.store stored) >>= fun _ =>
      Emit.instr (.loadLocal temporary) >>= fun _ => Pure.pure element) := fun _ =>
    h.bind (h.coerce _ _ _) fun _ => h.bind (h.addTemporary _) fun _ => h.bind (h.instr rfl) fun _ =>
      h.bind (h.instr rfl) fun _ => h.bind (h.instr rfl) fun _ => h.bind (h.instr rfl) fun _ => h.pure _
  cases op with
  | none => exact h.bind hvalue hstore
  | some op =>
    exact h.bind (h.instr rfl) fun _ => h.bind (h.instr rfl) fun _ => h.bind hvalue fun _ =>
      h.bind (h.applyBinary _ _ _ hop) hstore

theorem callFunction (name : String) (count : Nat) {arguments : List CType → Emit Unit}
    (location : Location) (harguments : ∀ types, P Unit (arguments types)) :
    P CType (Emit.callFunction name count arguments location) := by
  refine h.bind h.get fun s => ?_
  split
  · exact h.refuse _ _
  · rename_i signature _
    have hcall : ∀ types, P CType (arguments types >>= fun _ => Emit.instr (.call signature.method) >>=
        fun _ => Pure.pure signature.returnType) := fun types =>
      h.bind (harguments types) fun _ => h.bind (h.instr rfl) fun _ => h.pure _
    cases signature.parameters with
    | some types => exact h.bind (h.pure _) fun types => h.optionally (h.refuse _ _) (hcall types)
    | none =>
      dsimp only
      split
      · exact h.bind (h.pure _) fun types => h.optionally (h.refuse _ _) (hcall types)
      · exact h.bind (h.missing _ _) fun types => h.optionally (h.refuse _ _) (hcall types)

/-! ## Expressions -/

mutual

/-- Whether the code of an expression can be emitted or not, it has the property. -/
theorem compileExpression : ∀ e : Expression, Excuses allowed e.compounds → P CType e.compile
  | .intLiteral _ value, _ => by
    unfold Expression.compile
    split <;> exact h.bind (h.instr rfl) fun _ => h.pure _
  | .identifier span name, _ => by
    unfold Expression.compile
    exact h.bind (h.lookupVariable _ _) fun v => h.bind (h.load v) fun _ => h.pure _
  | .binary _ op left right, hops => by
    unfold Expression.compounds at hops
    have hleft := compileExpression left hops.left
    have hright := compileExpression right hops.right
    cases op with
    | logical op =>
      unfold Expression.compile
      exact h.shortCircuit op (h.condition _ hleft) (h.condition _ hright)
    | arithmetic op | comparison op =>
      unfold Expression.compile
      refine h.bind hleft fun _ => h.bind hright fun _ => h.applyBinary _ _ _ fun op' hop' => ?_
      cases List.mem_singleton.1 hop'
  | .unary span op operand, hops => by
    unfold Expression.compounds at hops
    unfold Expression.compile
    exact h.applyUnary _ _ _ (compileExpression operand hops)
  | .assignment span op target value, hops => by
    unfold Expression.compounds at hops
    have hop := hops.left.left
    have htarget := hops.left.right
    have hvalue := compileExpression value hops.right
    cases target with
    | identifier _ name =>
      unfold Expression.compile
      exact h.assignVariable hop _ _ hvalue
    | subscript _ array index =>
      unfold Expression.compounds at htarget
      have harray := compileExpression array htarget.left
      have hindex := compileExpression index htarget.right
      unfold Expression.compile
      exact h.assignThrough hop _ (h.elementAddress _ harray hindex) hvalue
    | unary _ uop pointer =>
      unfold Expression.compounds at htarget
      have hpointer := compileExpression pointer htarget
      cases uop with
      | dereference =>
        unfold Expression.compile
        exact h.assignThrough hop _ (h.address _ hpointer) hvalue
      | _ =>
        unfold Expression.compile
        exact h.refuse _ _
    | _ =>
      unfold Expression.compile
      exact h.refuse _ _
  | .call span function arguments, hops => by
    unfold Expression.compounds at hops
    have harguments := compileArguments arguments hops.right
    cases function with
    | identifier _ name =>
      unfold Expression.compile
      exact h.callFunction _ _ _ harguments
    | _ =>
      unfold Expression.compile
      exact h.missing _ _
  | .subscript span array index, hops => by
    unfold Expression.compounds at hops
    have harray := compileExpression array hops.left
    have hindex := compileExpression index hops.right
    unfold Expression.compile
    exact h.bind (h.elementAddress _ harray hindex) fun _ => h.loadThrough _ _

theorem compileArguments : ∀ arguments : List Expression,
    Excuses allowed (Expression.argumentCompounds arguments) →
    ∀ types, P Unit (Expression.compileArguments arguments types)
  | [], _, types => by
    unfold Expression.compileArguments
    exact h.pure _
  | argument :: arguments, hops, types => by
    unfold Expression.argumentCompounds at hops
    have hargument := compileExpression argument hops.left
    have hrest := compileArguments arguments hops.right
    cases types with
    | nil =>
      unfold Expression.compileArguments
      exact h.pure _
    | cons type types =>
      unfold Expression.compileArguments
      exact h.bind hargument fun _ => h.bind (h.coerce _ _ _) fun _ => hrest types

end

theorem compileCondition {e : Expression} (hops : Excuses allowed e.compounds) :
    P Unit e.compileCondition := h.condition _ (h.compileExpression e hops)

theorem compileEffect {e : Expression} (hops : Excuses allowed e.compounds) :
    P Unit e.compileEffect := by
  refine h.bind (h.compileExpression e hops) fun type => ?_
  split
  · exact h.instr rfl
  · exact h.pure _

theorem optionalCondition {condition : Option Expression}
    (hops : Excuses allowed (Expression.compounds? condition)) :
    ∀ x, condition.map Expression.compileCondition = some x → P Unit x := by
  rintro x hx
  obtain ⟨e, rfl, rfl⟩ := Option.map_eq_some_iff.1 hx
  exact h.compileCondition (by simpa [Expression.compounds?] using hops)

theorem optionalEffect {update : Option Expression}
    (hops : Excuses allowed (Expression.compounds? update)) :
    P Unit (update.forM Expression.compileEffect) := by
  cases update with
  | none => exact h.pure _
  | some e => exact h.compileEffect (by simpa [Expression.compounds?] using hops)

/-! ## Statements -/

theorem compileLocal {d : LocalDeclaration}
    (hops : Excuses allowed (Expression.compounds? d.initializer)) : P Unit d.compile := by
  unfold LocalDeclaration.compile
  split
  · exact h.discard (h.declareLocal _ _ _)
  · rename_i e he
    rw [he] at hops
    have hvalue := h.compileExpression e (by simpa [Expression.compounds?] using hops)
    exact h.bind hvalue fun _ => h.bind (h.declareLocal _ _ _) fun v => h.bind (h.coerce _ _ _)
      fun _ => h.store v

theorem forM {f : α → Emit Unit} : ∀ {as : List α}, (∀ a ∈ as, P Unit (f a)) → P Unit (as.forM f)
  | [], _ => h.pure _
  | a :: as, hf => by
    obtain ⟨hfirst, hrest⟩ := List.forall_mem_cons.1 hf
    exact h.bind hfirst fun _ => forM hrest

theorem returnFrom {value : Option Expression} (location : Location)
    (hops : Excuses allowed (Expression.compounds? value)) : P Unit (Emit.returnFrom value location) := by
  refine h.bind h.get fun s => ?_
  cases value with
  | none => exact h.optionally (h.throw (h.misused _ _)) (h.instr rfl)
  | some value =>
    have hvalue := h.compileExpression value (by simpa [Expression.compounds?] using hops)
    have hcode : P Unit (value.compile >>= fun type =>
        Emit.coerce type s.signature.returnType location >>= fun _ => Emit.instr .ret) :=
      h.bind hvalue fun _ => h.bind (h.coerce _ _ _) fun _ => h.instr rfl
    exact h.optionally (h.throw (h.misused _ _)) hcode

mutual

/-- Whether the code of a body can be emitted or not, it has the property. -/
theorem compileBody : ∀ b : Body, Excuses allowed b.compounds → P Unit b.compile
  | .block parts, hops => by
    unfold Body.compounds at hops
    unfold Body.compile
    exact h.withBlock (compileBodies parts hops)
  | .expression e, hops => by
    unfold Body.compounds at hops
    unfold Body.compile
    exact h.compileEffect hops
  | .declare locals, hops => by
    unfold Body.compounds at hops
    unfold Body.compile
    exact h.forM fun d hd => h.compileLocal fun op hop => hops op (List.mem_flatMap.2 ⟨d, hd, hop⟩)
  | .conditional condition thenBranch none, hops => by
    unfold Body.compounds at hops
    unfold Body.compile
    exact h.conditional (h.compileCondition hops.left) (compileBody thenBranch hops.right)
  | .conditional condition thenBranch (some elseBranch), hops => by
    unfold Body.compounds at hops
    unfold Body.compile
    exact h.choice (h.compileCondition hops.left.left) (compileBody thenBranch hops.left.right)
      (compileBody elseBranch hops.right)
  | .whileLoop condition body, hops => by
    unfold Body.compounds at hops
    unfold Body.compile
    exact h.whileLoop (h.compileCondition hops.left) (compileBody body hops.right)
  | .doWhileLoop body condition, hops => by
    unfold Body.compounds at hops
    unfold Body.compile
    exact h.doWhileLoop (compileBody body hops.left) (h.compileCondition hops.right)
  | .forLoop none condition update body, hops => by
    unfold Body.compounds at hops
    unfold Body.compile
    exact h.withBlock (h.forLoop (h.pure _) (h.optionalCondition hops.left.left)
      (h.optionalEffect hops.left.right) (compileBody body hops.right))
  | .forLoop (some start) condition update body, hops => by
    unfold Body.compounds at hops
    unfold Body.compile
    exact h.withBlock (h.forLoop (compileBody start hops.left.left.left)
      (h.optionalCondition hops.left.left.right) (h.optionalEffect hops.left.right)
      (compileBody body hops.right))
  | .exitLoop location, _ => by
    unfold Body.compile
    exact h.exitLoop location
  | .nextRound location, _ => by
    unfold Body.compile
    exact h.nextRound location
  | .ret value location, hops => by
    unfold Body.compounds at hops
    unfold Body.compile
    exact h.returnFrom location hops
  | .empty, _ => by
    unfold Body.compile
    exact h.pure _

theorem compileBodies : ∀ bs : List Body, Excuses allowed (Body.allCompounds bs) →
    P Unit (Body.compileAll bs)
  | [], _ => by
    unfold Body.compileAll
    exact h.pure _
  | b :: bs, hops => by
    unfold Body.allCompounds at hops
    unfold Body.compileAll
    exact h.bind (compileBody b hops.left) fun _ => compileBodies bs hops.right

end

end Emit.Closed

end ManagedC
