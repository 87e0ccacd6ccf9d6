import ManagedC.Proofs.Emit.ExpressionCode

/-!
# What the code of statements consists of

`Body.Code` says which code a body becomes, one constructor for each form of statement, as
`Emission.Code` does for expressions. Main statements: whatever the compiler emits for a body is its
code (`Body.code_compile`), and a body only adds to the method under construction
(`Body.Code.grows`).
-/

namespace ManagedC

open Yields Emit

namespace Scope

/-- The scope with a local variable declared in the innermost block. -/
def declareVariable (s : Scope) (name : String) (type : CType) (target : TargetType) : Scope :=
  { s with
    assembler := s.assembler.pushLocal ⟨some name, target, false⟩
    blocks := ((name, ⟨.local s.nextSlot, type⟩) :: s.blocks.headD []) :: s.blocks.tail }

/-- Two states of a scope between which a body was compiled. Names may have been declared in the
innermost block. -/
structure Grows (s t : Scope) : Prop where
  /-- Only the method under construction and the blocks differ. -/
  eq : t = { s with assembler := t.assembler, blocks := t.blocks }
  method : s.assembler.method.Extends t.assembler.method
  /-- The open regions are the same. -/
  regions : t.assembler.regions = s.assembler.regions
  /-- The outer blocks are the same. -/
  outer : t.blocks.tail = s.blocks.tail

theorem Emits.grows {s t : Scope} (h : s.Emits t) : s.Grows t := by
  refine ⟨?_, h.method, h.regions, ?_⟩ <;> rw [h.eq]

theorem Grows.refl (s : Scope) : Grows s s := ⟨rfl, .refl _, rfl, rfl⟩

theorem Grows.trans {s t u : Scope} (h : Grows s t) (h' : Grows t u) : Grows s u := by
  refine ⟨?_, h.method.trans h'.method, h'.regions.trans h.regions, h'.outer.trans h.outer⟩
  rw [h'.eq, h.eq]

end Scope

/-- The code of an expression whose value is dropped, if there is an expression. -/
inductive Expression.EffectCode : Scope → Option Expression → Scope → Prop where
  | none {s : Scope} : EffectCode s none s
  /-- The value of the expression is popped unless it has none. -/
  | some {s u : Scope} {e : Expression} {type : CType} :
    Emission.Code s (.value e type) u →
    EffectCode s (some e) (u.append [] (if type.isVoid then [] else [.pop]))

/-- The code of a test, if there is one; it jumps to a label if the test fails. -/
inductive Expression.TestCode : Scope → Option Expression → Label → Scope → Prop where
  | none {s : Scope} {label : Label} : TestCode s none label s
  | some {s u : Scope} {e : Expression} {type : CType} {label : Label} :
    Emission.Code s (.value e type) u → type.isComparable = true →
    TestCode s (some e) label (u.append [] [.branchIf false label])

/-- The code of a local declaration. -/
inductive LocalDeclaration.Code : Scope → LocalDeclaration → Scope → Prop where
  /-- No initial value is given. -/
  | plain {s : Scope} {d : LocalDeclaration} {target : TargetType} :
    d.initializer = none → d.type.isVoid = false → d.type.target = .ok target →
    Code s d (s.declareVariable d.name d.type target)
  /-- An initial value is given; it does not see the variable. -/
  | initialized {s u : Scope} {d : LocalDeclaration} {e : Expression} {type : CType}
      {target : TargetType} :
    d.initializer = some e → Emission.Code s (.value e type) u → type.Convertible d.type →
    d.type.isVoid = false → d.type.target = .ok target →
    Code s d ((u.declareVariable d.name d.type target).append []
      (coercion type d.type ++ [.storeLocal u.nextSlot]))

/-- The code of local declarations one after the other. -/
inductive LocalDeclaration.ListCode : Scope → List LocalDeclaration → Scope → Prop where
  | nil {s : Scope} : ListCode s [] s
  | cons {s u t : Scope} {d : LocalDeclaration} {ds : List LocalDeclaration} :
    Code s d u → ListCode u ds t → ListCode s (d :: ds) t

/-- The code of bodies one after the other leads from one scope to another. A body stands for the
list with it alone. -/
inductive Body.Code : Scope → List Body → Scope → Prop where
  | nil {s : Scope} : Code s [] s
  /-- A body, and at least one after it. -/
  | cons {s u t : Scope} {part next : Body} {parts : List Body} :
    Code s [part] u → Code u (next :: parts) t → Code s (part :: next :: parts) t
  | block {s t : Scope} {parts : List Body} :
    Code s.openBlock parts t → Code s [.block parts] t.closeBlock
  | expression {s t : Scope} {e : Expression} :
    Expression.EffectCode s (some e) t → Code s [.expression e] t
  | declare {s t : Scope} {locals : List LocalDeclaration} :
    LocalDeclaration.ListCode s locals t → Code s [.declare locals] t
  /-- A choice without an alternative. -/
  | conditional {s u v t : Scope} {condition : Expression} {thenBranch : Body} :
    Expression.TestCode (s.reserve 1) (some condition) s.nextLabel u →
    Code u [thenBranch] v → v.Binds s.nextLabel t →
    Code s [.conditional condition thenBranch none] t
  /-- A choice between two branches. -/
  | choice {s u v w x t : Scope} {condition : Expression} {thenBranch elseBranch : Body} :
    Expression.TestCode (s.reserve 1) (some condition) s.nextLabel u →
    Code u [thenBranch] v →
    ((v.reserve 1).append [] (if v.assembler.isTerminated then [] else [.branch v.nextLabel])).Binds
      s.nextLabel w →
    Code w [elseBranch] x → x.Binds v.nextLabel t →
    Code s [.conditional condition thenBranch (some elseBranch)] t
  /-- A loop that tests before its body. -/
  | whileLoop {s a u v t : Scope} {condition : Expression} {body : Body} :
    (s.reserve 2).Binds s.nextLabel a →
    Expression.TestCode a (some condition) (s.nextLabel + 1) u →
    Code (u.openLoop ⟨s.nextLabel + 1, s.nextLabel⟩) [body] v →
    (v.closeLoop.append [] [.branch s.nextLabel]).Binds (s.nextLabel + 1) t →
    Code s [.whileLoop condition body] t
  /-- A loop that tests after its body. -/
  | doWhileLoop {s a v w x t : Scope} {condition : Expression} {body : Body} {type : CType} :
    (s.reserve 3).Binds s.nextLabel a →
    Code (a.openLoop ⟨s.nextLabel + 2, s.nextLabel + 1⟩) [body] v →
    v.closeLoop.Binds (s.nextLabel + 1) w →
    Emission.Code w (.value condition type) x → type.isComparable = true →
    (x.append [] [.branchIf true s.nextLabel]).Binds (s.nextLabel + 2) t →
    Code s [.doWhileLoop body condition] t
  /-- A loop with a start, a test and an update. -/
  | forLoop {s b a u v w x t : Scope} {start : Option Body} {condition update : Option Expression}
      {body : Body} :
    Code s.openBlock start.toList b →
    (b.reserve 3).Binds b.nextLabel a →
    Expression.TestCode a condition (b.nextLabel + 2) u →
    Code (u.openLoop ⟨b.nextLabel + 2, b.nextLabel + 1⟩) [body] v →
    v.closeLoop.Binds (b.nextLabel + 1) w →
    Expression.EffectCode w update x →
    (x.append [] [.branch b.nextLabel]).Binds (b.nextLabel + 2) t →
    Code s [.forLoop start condition update body] t.closeBlock
  /-- The end of the innermost loop. -/
  | exitLoop {s : Scope} {labels : LoopLabels} {outer : List LoopLabels} {location : Location} :
    s.loops = labels :: outer → Code s [.exitLoop location] (s.append [] [.branch labels.exit])
  /-- The end of a round of the innermost loop. -/
  | nextRound {s : Scope} {labels : LoopLabels} {outer : List LoopLabels} {location : Location} :
    s.loops = labels :: outer → Code s [.nextRound location] (s.append [] [.branch labels.next])
  /-- A return without a value. -/
  | ret {s : Scope} {location : Location} :
    s.signature.returnType.isVoid = true → Code s [.ret none location] (s.append [] [.ret])
  /-- A return with a value. -/
  | retValue {s u : Scope} {value : Expression} {type : CType} {location : Location} :
    s.signature.returnType.isVoid = false → Emission.Code s (.value value type) u →
    type.Convertible s.signature.returnType →
    Code s [.ret (some value) location]
      (u.append [] (coercion type s.signature.returnType ++ [.ret]))
  | empty {s : Scope} : Code s [.empty] s

namespace Emit

variable {s t : Scope}

theorem yields_compileEffect {e : Expression} {u : Unit} (h : Yields e.compileEffect s u t) :
    Expression.EffectCode s (some e) t := by
  unfold Expression.compileEffect at h
  rw [bind_iff] at h
  obtain ⟨type, v, he, h⟩ := h
  have hcode := e.code_compile he
  cases hv : type.isVoid with
  | true =>
    rw [hv] at h
    obtain ⟨-, rfl⟩ := pure_iff.1 h
    have := Expression.EffectCode.some hcode
    rwa [hv, if_pos rfl, Scope.append_nil] at this
  | false =>
    rw [hv] at h
    rw [yields_instr.1 h]
    have := Expression.EffectCode.some hcode
    rwa [hv, if_neg Bool.false_ne_true] at this

theorem yields_bracket {α : Type} {enter exit : Scope → Scope} {body : Emit α} {a : α} :
    Yields (bracket enter exit body) s a t ↔ ∃ u, Yields body (enter s) a u ∧ t = exit u := by
  unfold Yields bracket
  constructor
  · intro h
    rcases hb : body (enter s) with ⟨r, u⟩
    rw [hb] at h
    cases h
    exact ⟨u, rfl, rfl⟩
  · rintro ⟨u, hb, rfl⟩
    rw [hb]

theorem yields_declareLocal {name : String} {type : CType} {location : Location} {v : Variable}
    (h : Yields (declareLocal name type location) s v t) :
    ∃ target, type.isVoid = false ∧ type.target = .ok target ∧ v = ⟨.local s.nextSlot, type⟩ ∧
      t = s.declareVariable name type target := by
  unfold declareLocal at h
  cases hv : type.isVoid with
  | true => simp only [hv, if_true, bind_iff, not_throw, false_and, exists_false] at h
  | false =>
    simp only [hv, Bool.false_eq_true, if_false] at h
    rw [bind_iff] at h
    obtain ⟨target, s, hr, h⟩ := h
    obtain ⟨ht, rfl⟩ := yields_represent hr
    rw [bind_iff] at h
    obtain ⟨_, u, hm, h⟩ := h
    rw [bind_iff] at h
    obtain ⟨_, _, hg, h⟩ := h
    obtain ⟨rfl, rfl⟩ := get_iff.1 hg
    split at h
    · simp only [bind_iff, not_throw, false_and, exists_false] at h
    · obtain rfl := modify_iff.1 hm
      simp only [bind_iff, modify_iff, pure_iff] at h
      obtain ⟨slot, u, hslot, _, _, rfl, rfl, rfl⟩ := h
      obtain ⟨assembler, hs, rfl⟩ := yields_assemble hslot
      obtain ⟨rfl, rfl⟩ := Assembly.yields_addLocal hs
      obtain ⟨assembler, functions, signature, parameters, blocks, loops⟩ := s
      refine ⟨target, rfl, ht, ?_, ?_⟩
      · cases blocks <;> rfl
      · cases blocks <;> rfl

theorem yields_jumpInLoop {label : LoopLabels → Label} {refusal : Refusal} {location : Location}
    {u : Unit} (h : Yields (jumpInLoop label refusal location) s u t) :
    ∃ labels outer, s.loops = labels :: outer ∧ t = s.append [] [.branch (label labels)] := by
  unfold jumpInLoop at h
  simp only [bind_iff, get_iff] at h
  obtain ⟨_, _, ⟨rfl, rfl⟩, h⟩ := h
  split at h
  · exact absurd h not_yields_refuse
  · rename_i labels outer hl
    exact ⟨labels, outer, hl, yields_instr.1 h⟩

theorem yields_returnFrom {value : Option Expression} {location : Location} {u : Unit}
    (h : Yields (returnFrom value location) s u t) : Body.Code s [.ret value location] t := by
  unfold returnFrom at h
  rw [bind_iff] at h
  obtain ⟨s, s, hg, h⟩ := h
  obtain ⟨rfl, rfl⟩ := get_iff.1 hg
  dsimp only at h
  cases value with
  | none =>
    cases hv : s.signature.returnType.isVoid with
    | false => simp only [hv, Bool.not_false, if_true, bind_iff, not_throw, false_and, exists_false] at h
    | true =>
      simp only [hv, Bool.not_true, Bool.false_eq_true, if_false] at h
      rw [yields_instr.1 h]
      exact .ret hv
  | some value =>
    cases hv : s.signature.returnType.isVoid with
    | true => simp only [hv, if_true, bind_iff, not_throw, false_and, exists_false] at h
    | false =>
      simp only [hv, Bool.false_eq_true, if_false, bind_iff, yields_instr] at h
      obtain ⟨type, w, he, _, _, hc, rfl⟩ := h
      obtain ⟨rfl, hconv⟩ := yields_coerce hc
      rw [Scope.append_append]
      exact .retValue hv (value.code_compile he) hconv

/-- A test emits its code and the jump. -/
theorem testCode_of_yields {condition : Expression} {label : Label} {u : Unit}
    (h : Yields condition.compileCondition s u t) :
    Expression.TestCode s (some condition) label (t.append [] [.branchIf false label]) := by
  obtain ⟨type, he, hc⟩ := yields_condition h
  exact .some (condition.code_compile he) hc

/-- A loop with a start emits its parts in order: the start, the test, the body, the update. -/
theorem yields_forLoop {start body : Emit Unit} {condition update : Option Expression} {u : Unit}
    (h : Yields (forLoop start (condition.map Expression.compileCondition)
      (update.forM Expression.compileEffect) body) s u t) :
    ∃ b a v w x y, Yields start s () b ∧ (b.reserve 3).Binds b.nextLabel a ∧
      Expression.TestCode a condition (b.nextLabel + 2) v ∧
      Yields body (v.openLoop ⟨b.nextLabel + 2, b.nextLabel + 1⟩) () w ∧
      w.closeLoop.Binds (b.nextLabel + 1) x ∧ Expression.EffectCode x update y ∧
      (y.append [] [.branch b.nextLabel]).Binds (b.nextLabel + 2) t := by
  unfold forLoop at h
  simp only [bind_iff, yields_newLabel] at h
  obtain ⟨_, b, hstart, _, _, ⟨rfl, rfl⟩, _, _, ⟨rfl, rfl⟩, _, _, ⟨rfl, rfl⟩, _, a, ha, h⟩ := h
  simp only [Scope.reserve_reserve] at ha
  have hrest : ∃ v, Expression.TestCode a condition (b.nextLabel + 2) v ∧ Yields (do
      withLoop (b.nextLabel + 2) (b.nextLabel + 1) body
      mark (b.nextLabel + 1)
      update.forM Expression.compileEffect
      instr (.branch b.nextLabel)
      mark (b.nextLabel + 2)) v u t := by
    cases condition with
    | none => exact ⟨a, .none, h⟩
    | some condition =>
      simp only [Option.map_some, bind_iff, yields_instr] at h
      obtain ⟨_, v, hc, _, _, rfl, h⟩ := h
      refine ⟨_, testCode_of_yields hc, ?_⟩
      simp only [bind_iff, yields_instr]
      exact h
  obtain ⟨v, htest, h⟩ := hrest
  simp only [bind_iff, yields_instr] at h
  obtain ⟨_, w, hloop, _, x, hn, _, y, hupdate, _, _, rfl, ht⟩ := h
  obtain ⟨w, hbody, rfl⟩ := yields_bracket.1 hloop
  refine ⟨b, a, v, w, x, y, hstart, yields_mark ha, htest, hbody, yields_mark hn, ?_, yields_mark ht⟩
  cases update with
  | none =>
    obtain ⟨-, rfl⟩ := pure_iff.1 hupdate
    exact .none
  | some e => exact yields_compileEffect hupdate

end Emit

namespace LocalDeclaration

variable {s t : Scope}

/-- What is emitted for a local declaration is its code. -/
theorem code_compile {d : LocalDeclaration} {u : Unit} (h : Yields d.compile s u t) :
    d.Code s t := by
  unfold compile at h
  split at h
  · rename_i hi
    obtain ⟨v, hv, -⟩ := map_iff.1 h
    obtain ⟨target, hvoid, ht, -, rfl⟩ := yields_declareLocal hv
    exact .plain hi hvoid ht
  · rename_i e hi
    simp only [bind_iff, yields_instr] at h
    obtain ⟨type, v, he, w, _, hd, _, _, hc, rfl⟩ := h
    obtain ⟨target, hvoid, ht, rfl, rfl⟩ := yields_declareLocal hd
    obtain ⟨rfl, hconv⟩ := yields_coerce hc
    rw [Scope.append_append]
    exact .initialized hi (e.code_compile he) hconv hvoid ht

/-- What is emitted for local declarations is their code. -/
theorem listCode_compile : ∀ {ds : List LocalDeclaration} {s t : Scope} {u : Unit},
    Yields (ds.forM compile) s u t → ListCode s ds t
  | [], s, t, u, h => by
    obtain ⟨-, rfl⟩ := pure_iff.1 h
    exact .nil
  | d :: ds, s, t, u, h => by
    unfold List.forM at h
    rw [bind_iff] at h
    obtain ⟨_, v, hd, h⟩ := h
    exact .cons (code_compile hd) (listCode_compile h)

end LocalDeclaration

namespace Body

mutual

/-- What is emitted for a body is its code. -/
theorem code_compile : ∀ (b : Body) {s t : Scope} {u : Unit},
    Yields b.compile s u t → Code s [b] t
  | .block parts, s, t, u, h => by
    unfold compile at h
    obtain ⟨v, hv, rfl⟩ := yields_bracket.1 h
    exact .block (code_compileAll parts hv)
  | .expression e, s, t, u, h => by
    unfold compile at h
    exact .expression (yields_compileEffect h)
  | .declare locals, s, t, u, h => by
    unfold compile at h
    exact .declare (LocalDeclaration.listCode_compile h)
  | .conditional condition thenBranch none, s, t, u, h => by
    unfold compile Emit.conditional at h
    simp only [bind_iff, yields_newLabel, yields_instr] at h
    obtain ⟨_, _, ⟨rfl, rfl⟩, _, v, hc, _, _, rfl, _, w, hthen, hm⟩ := h
    exact .conditional (testCode_of_yields hc) (thenBranch.code_compile hthen) (yields_mark hm)
  | .conditional condition thenBranch (some elseBranch), s, t, u, h => by
    unfold compile Emit.choice at h
    simp only [bind_iff, yields_newLabel, yields_instr, get_iff] at h
    obtain ⟨_, _, ⟨rfl, rfl⟩, _, v, hc, _, _, rfl, _, w, hthen, _, _, ⟨rfl, rfl⟩, _, _, ⟨rfl, rfl⟩,
      h⟩ := h
    have hjump : ∃ x y, Yields (mark s.nextLabel) ((w.reserve 1).append []
        (if w.assembler.isTerminated then [] else [.branch w.nextLabel])) () x ∧
        Yields elseBranch.compile x () y ∧ Yields (mark w.nextLabel) y () t := by
      cases hterm : w.assembler.isTerminated with
      | true =>
        have hterm : (w.reserve 1).assembler.isTerminated = true := hterm
        simp only [hterm, Bool.not_true, Bool.false_eq_true, if_false, bind_iff] at h
        obtain ⟨_, x, hx, _, y, hy, h⟩ := h
        exact ⟨x, y, by rwa [if_pos rfl, Scope.append_nil], hy, h⟩
      | false =>
        have hterm : (w.reserve 1).assembler.isTerminated = false := hterm
        simp only [hterm, Bool.not_false, if_true, bind_iff, yields_instr] at h
        obtain ⟨_, _, rfl, _, x, hx, _, y, hy, h⟩ := h
        exact ⟨x, y, hx, hy, h⟩
    obtain ⟨x, y, hx, hy, ht⟩ := hjump
    exact .choice (testCode_of_yields hc) (thenBranch.code_compile hthen) (yields_mark hx)
      (elseBranch.code_compile hy) (yields_mark ht)
  | .whileLoop condition body, s, t, u, h => by
    unfold compile Emit.whileLoop at h
    simp only [bind_iff, yields_newLabel, yields_instr] at h
    obtain ⟨_, _, ⟨rfl, rfl⟩, _, _, ⟨rfl, rfl⟩, _, v, ha, _, w, hc, _, _, rfl, _, x, hloop, _, _, rfl,
      hm⟩ := h
    obtain ⟨y, hbody, rfl⟩ := yields_bracket.1 hloop
    rw [Scope.reserve_reserve] at ha
    exact .whileLoop (yields_mark ha) (testCode_of_yields hc) (body.code_compile hbody)
      (yields_mark hm)
  | .doWhileLoop body condition, s, t, u, h => by
    unfold compile Emit.doWhileLoop at h
    simp only [bind_iff, yields_newLabel, yields_instr] at h
    obtain ⟨_, _, ⟨rfl, rfl⟩, _, _, ⟨rfl, rfl⟩, _, _, ⟨rfl, rfl⟩, _, v, ha, _, w, hloop, _, x, ht, _,
      y, hc, _, _, rfl, hm⟩ := h
    obtain ⟨z, hbody, rfl⟩ := yields_bracket.1 hloop
    obtain ⟨type, he, hscalar⟩ := yields_condition hc
    simp only [Scope.reserve_reserve] at ha
    exact .doWhileLoop (yields_mark ha) (body.code_compile hbody) (yields_mark ht)
      (condition.code_compile he) hscalar (yields_mark hm)
  | .forLoop none condition update body, s, t, u, h => by
    unfold compile at h
    obtain ⟨v, hv, rfl⟩ := yields_bracket.1 h
    obtain ⟨b, a, w, x, y, z, hstart, ha, htest, hbody, hn, hupdate, ht⟩ := yields_forLoop hv
    obtain ⟨-, rfl⟩ := pure_iff.1 hstart
    exact .forLoop .nil ha htest (body.code_compile hbody) hn hupdate ht
  | .forLoop (some start) condition update body, s, t, u, h => by
    unfold compile at h
    obtain ⟨v, hv, rfl⟩ := yields_bracket.1 h
    obtain ⟨b, a, w, x, y, z, hstart, ha, htest, hbody, hn, hupdate, ht⟩ := yields_forLoop hv
    exact .forLoop (start.code_compile hstart) ha htest (body.code_compile hbody) hn hupdate ht
  | .exitLoop location, s, t, u, h => by
    unfold compile at h
    obtain ⟨labels, outer, hl, rfl⟩ := yields_jumpInLoop h
    exact .exitLoop hl
  | .nextRound location, s, t, u, h => by
    unfold compile at h
    obtain ⟨labels, outer, hl, rfl⟩ := yields_jumpInLoop h
    exact .nextRound hl
  | .ret value location, s, t, u, h => by
    unfold compile at h
    exact yields_returnFrom h
  | .empty, s, t, u, h => by
    unfold compile at h
    obtain ⟨-, rfl⟩ := pure_iff.1 h
    exact .empty

/-- What is emitted for bodies one after the other is their code. -/
theorem code_compileAll : ∀ (bs : List Body) {s t : Scope} {u : Unit},
    Yields (compileAll bs) s u t → Code s bs t
  | [], s, t, u, h => by
    unfold compileAll at h
    obtain ⟨-, rfl⟩ := pure_iff.1 h
    exact .nil
  | [part], s, t, u, h => by
    unfold compileAll compileAll at h
    rw [bind_iff] at h
    obtain ⟨_, v, hp, h⟩ := h
    obtain ⟨-, rfl⟩ := pure_iff.1 h
    exact part.code_compile hp
  | part :: next :: parts, s, t, u, h => by
    unfold compileAll at h
    rw [bind_iff] at h
    obtain ⟨_, v, hp, h⟩ := h
    exact .cons (part.code_compile hp) (code_compileAll (next :: parts) h)

end

end Body

/-! ## Only plain code is added -/

namespace Scope

variable {s t : Scope}

theorem grows_declareVariable (s : Scope) (name : String) (type : CType) (target : TargetType) :
    s.Grows (s.declareVariable name type target) := by
  refine ⟨rfl, ⟨rfl, rfl, rfl, rfl, ⟨#[], by simp [declareVariable,
    Assembler.pushLocal], by simp⟩, ⟨#[⟨some name, target, false⟩], ?_, by simp⟩, fun _ _ h => h⟩,
    rfl, rfl⟩
  simp [declareVariable, Assembler.pushLocal]

/-- A block of its own changes no names outside of it. -/
theorem Grows.closeBlock (h : s.openBlock.Grows t) : s.Emits t.closeBlock := by
  refine ⟨?_, h.method, h.regions⟩
  have hb : t.closeBlock.blocks = s.blocks := h.outer
  rw [h.eq] at hb ⊢
  show ({ s with assembler := t.assembler, blocks := t.blocks.tail } : Scope) = _
  rw [show t.blocks.tail = s.blocks from hb]
  rfl

/-- The labels of a loop are known inside it only. -/
theorem Grows.closeLoop {labels : LoopLabels} (h : (s.openLoop labels).Grows t) :
    s.Grows t.closeLoop := by
  refine ⟨?_, h.method, h.regions, h.outer⟩
  rw [h.eq]
  rfl

end Scope

theorem Expression.EffectCode.emits {s t : Scope} {e : Option Expression}
    (h : EffectCode s e t) : s.Emits t := by
  cases h with
  | none => exact .refl _
  | some he =>
    refine he.emits.trans (Scope.emits_append _ _ ?_)
    split <;> simp [Instruction.isPlain]

theorem Expression.TestCode.emits {s t : Scope} {e : Option Expression} {label : Label}
    (h : TestCode s e label t) : s.Emits t := by
  cases h with
  | none => exact .refl _
  | some he => exact he.emits.trans (Scope.emits_append _ _ (by simp [Instruction.isPlain]))

theorem LocalDeclaration.Code.grows {s t : Scope} {d : LocalDeclaration} (h : Code s d t) :
    s.Grows t := by
  cases h with
  | plain => exact Scope.grows_declareVariable _ _ _ _
  | initialized _ he =>
    refine he.emits.grows.trans ((Scope.grows_declareVariable _ _ _ _).trans
      (Scope.emits_append _ _ (List.forall_mem_append.2 ⟨isPlain_coercion, ?_⟩)).grows)
    simp [Instruction.isPlain]

theorem LocalDeclaration.ListCode.grows {s t : Scope} {ds : List LocalDeclaration}
    (h : ListCode s ds t) : s.Grows t := by
  induction h with
  | nil => exact .refl _
  | cons hd _ ih => exact hd.grows.trans ih

/-- A body only adds to the method under construction. -/
theorem Body.Code.grows {s t : Scope} {bs : List Body} (h : Code s bs t) : s.Grows t := by
  induction h with
  | nil | empty => exact .refl _
  | cons _ _ ih ih' => exact ih.trans ih'
  | block _ ih => exact ih.closeBlock.grows
  | expression he => exact he.emits.grows
  | declare hd => exact hd.grows
  | conditional hc _ hm ih =>
    exact (Scope.emits_reserve _ _).grows.trans (hc.emits.grows.trans (ih.trans hm.emits.grows))
  | choice hc _ hm _ ht ihthen ihelse =>
    refine (Scope.emits_reserve _ _).grows.trans (hc.emits.grows.trans (ihthen.trans
      (((Scope.emits_reserve _ 1).trans ((Scope.emits_append _ _ ?_).trans hm.emits)).grows.trans
      (ihelse.trans ht.emits.grows))))
    split <;> simp [Instruction.isPlain]
  | whileLoop ha hc _ ht ih =>
    exact ((Scope.emits_reserve _ _).trans (ha.emits.trans hc.emits)).grows.trans
      (ih.closeLoop.trans ((Scope.emits_append _ _ (by simp [Instruction.isPlain])).trans
        ht.emits).grows)
  | doWhileLoop ha _ hw hx _ ht ih =>
    exact ((Scope.emits_reserve _ _).trans ha.emits).grows.trans (ih.closeLoop.trans
      (hw.emits.trans (hx.emits.trans ((Scope.emits_append _ _ (by simp [Instruction.isPlain])).trans
        ht.emits))).grows)
  | forLoop _ ha hc _ hw hu ht ihstart ihbody =>
    refine Scope.Emits.grows (Scope.Grows.closeBlock (ihstart.trans ?_))
    exact ((Scope.emits_reserve _ _).trans (ha.emits.trans hc.emits)).grows.trans
      (ihbody.closeLoop.trans (hw.emits.trans (hu.emits.trans
        ((Scope.emits_append _ _ (by simp [Instruction.isPlain])).trans ht.emits))).grows)
  | exitLoop | nextRound | ret =>
    exact (Scope.emits_append _ _ (by simp [Instruction.isPlain])).grows
  | retValue _ he =>
    exact (he.emits.trans (Scope.emits_append _ _ (List.forall_mem_append.2
      ⟨isPlain_coercion, by simp [Instruction.isPlain]⟩))).grows

/-! ## Names -/

namespace Scope

variable {s t : Scope}

/-- The names that can be referred to, the latest first. -/
def names (s : Scope) : Names := s.blocks.flatten ++ s.parameters

theorem findVariable?_eq (s : Scope) (name : String) :
    s.findVariable? name = s.names.lookup name := by
  have hblocks : ∀ blocks : List Names,
      blocks.findSome? (fun names => names.lookup name) = blocks.flatten.lookup name := by
    intro blocks
    induction blocks with
    | nil => rfl
    | cons names outer ih =>
      rw [List.findSome?_cons, List.flatten_cons, List.lookup_append, ← ih]
      cases names.lookup name <;> rfl
  unfold findVariable? names
  rw [hblocks, List.lookup_append]
  cases s.blocks.flatten.lookup name <;> rfl

theorem mem_names_of_findVariable? {name : String} {v : Variable} (h : s.findVariable? name = some v) :
    (name, v) ∈ s.names := by
  rw [findVariable?_eq] at h
  obtain ⟨before, after, heq, _⟩ := List.lookup_eq_some_iff.1 h
  rw [heq]
  exact List.mem_append_right _ List.mem_cons_self

theorem names_declareVariable (s : Scope) (name : String) (type : CType) (target : TargetType) :
    (s.declareVariable name type target).names = (name, ⟨.local s.nextSlot, type⟩) :: s.names := by
  unfold names declareVariable
  cases s.blocks <;> rfl

theorem names_closeBlock (s : Scope) : s.closeBlock.names <:+ s.names := by
  unfold names closeBlock
  cases s.blocks with
  | nil => exact List.suffix_rfl
  | cons names outer => exact ⟨names, by simp⟩

theorem Emits.names (h : s.Emits t) : t.names = s.names := by
  rw [h.eq]
  rfl

theorem Emits.findVariable? (h : s.Emits t) (name : String) :
    t.findVariable? name = s.findVariable? name := by
  rw [findVariable?_eq, findVariable?_eq, h.names]

end Scope

end ManagedC
