import ManagedC.Proofs.Meaning.Points
import ManagedC.Proofs.Pointers.Operators

/-!
# Every expression without side effects comes to something

An expression without assignments and calls comes to a value or to a sort of fault wherever it stands, and
what it comes to is decided by its variables and by memory alone. Main statements:
`Setting.Course.exists_settles`, and for the calls of compiled functions
`CompiledFunction.Stands.exists_gives`.
-/

namespace ManagedC

open Instruction

/-- There are no assignments and no calls in the expression. -/
def Expression.isPure : Expression → Bool
  | .intLiteral _ _ | .identifier _ _ => true
  | .binary _ _ left right | .subscript _ left right => left.isPure && right.isPure
  | .unary _ _ operand => operand.isPure
  | .assignment _ _ _ _ | .call _ _ _ => false

/-- The truth value that a logical operator leaves for its last operand. -/
def LogicalOp.truth (op : LogicalOp) (v : Value) : Value :=
  .int (if v.isTrue = op.decisive then op.decidedValue else 1 - op.decidedValue).toInt64

/-- What an operator makes of a value. A dereference is no such operator. -/
def UnaryOp.apply (op : UnaryOp) (v : Value) : Except Fault.Kind Value :=
  match op with
  | .negate => ((.int <| - ·) <$> v.asInt).mapError Fault.kind
  | .bitNot => ((.int <| ~~~ ·) <$> v.asInt).mapError Fault.kind
  | .logicalNot => v.compare .ceq (.int 0)
  | .dereference => .error .invalidProgram

/-- The type of what an operator makes of a value of a type. -/
def UnaryOp.resultType (op : UnaryOp) (type : CType) : CType :=
  match op with
  | .negate | .bitNot => .arithmeticResult type type
  | .logicalNot | .dereference => .int

/-- Control goes to a label if the topmost value has a truth value, else on. -/
theorem Activation.runsTo_branchIf {program : Module} {store : Store} {a : Activation} {x : Value}
    {rest : List Value} {condition : Bool} {target : Label} {pc : Nat}
    (hi : a.instruction? = some (.branchIf condition target))
    (htarget : a.method.body.labels.offset? target = some pc) (ha : a.stack = x :: rest) :
    a.RunsTo program store
      { a with stack := rest, pc := if x.isTrue = condition then pc else a.pc + 1 } := by
  by_cases hx : x.isTrue = condition
  · rw [if_pos hx]
    exact .of_executes hi rfl (.branchTaken ha hx htarget)
  · rw [if_neg hx]
    exact .of_executes hi rfl (.branchPassed ha hx)

namespace Setting

variable {E : Setting} {s t u v w : Scope} {a b : Activation} {rest stack : List Value} {x y : Value}
  {e left right : Expression} {span : Span} {type leftType rightType element : CType}

/-- What an operator makes of the value of an expression. -/
theorem Course.Settles.unary {ε : Type} {C : E.Course ε} {outcome : Except ε Value} {op : UnaryOp}
    (hop : op ≠ .dereference) (h : C.Settles (.value e) type outcome) :
    C.Settles (.value (.unary span op e)) (op.resultType type)
      (outcome >>= fun v => C.lift (op.apply v)) := by
  constructor
  · intro u t type' hu hcode
    cases hcode with
    | negate he | bitNot he =>
      obtain rfl := h.typed hu he
      rfl
    | logicalNot => rfl
    | load haddress =>
      cases haddress with
      | dereference => exact absurd rfl hop
  · intro u t a hcode ha hM
    generalize op.resultType type = resultType at hcode
    cases hcode with
    | negate he =>
      obtain rfl := h.typed ha.sees he
      have heM := (Scope.emits_append _ _ (by simp [Instruction.isPlain])).extends hM
      exact Course.append (h.meets he ha heM) hM (maps_onTop rfl)
    | bitNot he =>
      obtain rfl := h.typed ha.sees he
      have heM := (Scope.emits_append _ _ (by simp [Instruction.isPlain])).extends hM
      exact Course.append (h.meets he ha heM) hM (maps_onTop rfl)
    | logicalNot he =>
      obtain rfl := h.typed ha.sees he
      have heM := (Scope.emits_append _ _ (by simp [Instruction.isPlain])).extends hM
      exact Course.append (h.meets he ha heM) hM ((combines_compare .ceq).constant 0)
    | load haddress =>
      cases haddress with
      | dereference => exact absurd rfl hop

/-- What a pointer leads to. -/
theorem Gives.dereference {stored : TargetType} {outcome : Except Fault.Kind Value}
    (htarget : element.target = .ok stored) (h : E.Gives e (.pointer element) outcome) :
    E.Gives (.unary span .dereference e) element (outcome >>= E.load stored) :=
  of_settles (h.settles.dereference.load rfl htarget)

/-! ## Logical operators -/

namespace Has

/-- Control goes to where other code begins. -/
theorem jump (ha : E.Has s a) (he : s.Emits t) (stack : List Value) :
    E.Has t { a with stack := stack, pc := t.offset } where
  sees := ha.sees.emits he
  below p hp := (ha.below p hp).mono he.method.locals_le
  addressable := ha.addressable
  sized := ⟨ha.sized.arguments, ha.sized.locals⟩
  pc := rfl
  kept := ha.kept

/-- Nothing is emitted in between. -/
theorem emits (ha : E.Has s a) (he : s.Emits t) (hoffset : t.offset = s.offset) : E.Has t a := by
  have hjump := ha.jump he a.stack
  rw [hoffset, ← ha.pc] at hjump
  exact hjump

end Has

section

variable {op : LogicalOp} {decided last : Label}
  (hw : (v.append [] [.branchIf op.decisive decided, .constInt32 (1 - op.decidedValue),
    .branch last]).Binds decided w)
  (ht : (w.append [] [.constInt32 op.decidedValue]).Binds last t)
  (hM : t.assembler.method.Extends a.method)

include ht hM

/-- Where an operand has decided, its truth value is left. -/
theorem computes_decided (ha : E.Has w a) :
    E.Computes a t a.stack (.ok (.int op.decidedValue.toInt64)) := by
  have hpush : a.Follows E.store [.constInt32 op.decidedValue]
      { a with stack := .int op.decidedValue.toInt64 :: a.stack, pc := a.pc + 1 } :=
    .cons rfl .constInt32 rfl .nil
  obtain ⟨hruns, hhas⟩ := ha.follows (ht.emits.extends hM) hpush (fun _ _ => rfl)
  exact ⟨_, hruns, hhas.emits ht.emits ht.offset, ⟨rfl, rfl, rfl, rfl, rfl⟩, rfl⟩

include hw

/-- The truth value of the last operand is left. -/
theorem computes_last (ha : E.Has v a) (hstack : a.stack = y :: rest) :
    E.Computes a t rest (.ok (op.truth y)) := by
  have hwM := (Scope.emits_append w [] (by simp [Instruction.isPlain])).extends (ht.emits.extends hM)
  have hplain : v.Emits (v.append [] [.branchIf op.decisive decided, .constInt32 (1 - op.decidedValue),
      .branch last]) := Scope.emits_append _ _ (by simp [Instruction.isPlain])
  have hcode := Scope.hasCode_append (hw.emits.extends hwM)
  have hdecided : a.method.body.labels.offset? decided = some w.offset := hw.stands hwM
  have hlast : a.method.body.labels.offset? last = some t.offset := ht.stands hM
  rw [← ha.pc] at hcode
  have hjump : a.RunsTo E.program E.store _ :=
    Activation.runsTo_branchIf hcode.head hdecided hstack
  unfold LogicalOp.truth
  by_cases hy : y.isTrue = op.decisive
  · rw [if_pos hy] at hjump ⊢
    exact .after hjump ⟨rfl, rfl, rfl, rfl, rfl⟩
      (computes_decided ht hM (ha.jump (hplain.trans hw.emits) rest))
  · rw [if_neg hy] at hjump ⊢
    let b : Activation := { a with stack := rest, pc := a.pc + 1 }
    let c : Activation := { b with stack := .int (1 - op.decidedValue).toInt64 :: rest, pc := a.pc + 2 }
    let d : Activation := { c with pc := t.offset }
    have hbc : b.RunsTo E.program E.store c := .of_executes hcode.tail.head rfl .constInt32
    have hcd : c.RunsTo E.program E.store d := .of_executes hcode.tail.tail.head rfl (.branch hlast)
    have hemits : v.Emits t := hplain.trans (hw.emits.trans
      ((Scope.emits_append w [] (by simp [Instruction.isPlain])).trans ht.emits))
    exact ⟨d, (hjump.trans hbc).trans hcd, ha.jump hemits _, ⟨rfl, rfl, rfl, rfl, rfl⟩, rfl⟩

end

namespace Course.Settles

variable {ε : Type} {C : E.Course ε} {first second : Except ε Value}

/-- What a logical operator makes of the values of two expressions. -/
theorem logical {op : LogicalOp} (hl : C.Settles (.value left) leftType first)
    (hr : C.Settles (.value right) rightType second) :
    C.Settles (.value (.binary span (.logical op) left right)) .int (do
      let x ← first
      if x.isTrue = op.decisive then .ok (op.truth x) else do
        let y ← second
        .ok (op.truth y)) := by
  constructor
  · intro u t type' _ hcode
    cases hcode with
    | logical => rfl
    | binary _ _ hoperator => cases hoperator
    | load haddress => cases haddress
  · intro s t a hcode ha hM
    cases hcode with
    | @logical _ u v w _ _ _ _ _ _ _ hleft _ hright _ hw ht =>
      have has := ha.emits (Scope.emits_reserve s 2) rfl
      have hwM := (Scope.emits_append w [] (by simp [Instruction.isPlain])).extends (ht.emits.extends hM)
      have hvM := (Scope.emits_append v [] (by simp [Instruction.isPlain])).extends
        (hw.emits.extends hwM)
      have hbranch : u.Emits (u.append [] [.branchIf op.decisive s.nextLabel]) :=
        Scope.emits_append _ _ (by simp [Instruction.isPlain])
      have hjumpM := hright.emits.extends hvM
      obtain rfl := hl.typed has.sees hleft
      obtain rfl := hr.typed ((has.sees.emits hleft.emits).emits hbranch) hright
      refine C.bind (hl.meets hleft has (hbranch.extends hjumpM)) fun x b _ hb hmethod hstack => ?_
      rw [← hmethod] at hM hwM hvM hjumpM
      have hdecided : b.method.body.labels.offset? s.nextLabel = some w.offset :=
        hw.stands hwM
      have hcode := Scope.hasCode_append hjumpM
      rw [← hb.pc] at hcode
      have hjump : b.RunsTo E.program E.store _ :=
        Activation.runsTo_branchIf hcode.head hdecided hstack
      by_cases hx : x.isTrue = op.decisive
      · rw [if_pos hx] at hjump ⊢
        have hemits : u.Emits w := hbranch.trans (hright.emits.trans
          ((Scope.emits_append v [] (by simp [Instruction.isPlain])).trans hw.emits))
        rw [LogicalOp.truth, if_pos hx]
        exact C.after hjump ⟨rfl, rfl, rfl, rfl, rfl⟩
          (Course.value (computes_decided ht hM (hb.jump hemits a.stack)))
      · rw [if_neg hx] at hjump ⊢
        have hc := hb.jump hbranch a.stack
        rw [Scope.offset_append, ← hb.pc] at hc
        refine C.after hjump ⟨rfl, rfl, rfl, rfl, rfl⟩ ?_
        refine C.bind (hr.meets hright hc hvM) fun y d _ hd hmethod' hstack' => ?_
        rw [← hmethod'] at hM
        exact Course.value (computes_last hw ht hM hd hstack')
    | binary _ _ hoperator => cases hoperator
    | load haddress => cases haddress

end Course.Settles

/-- An expression without side effects that is compiled where the names of the setting are in scope comes to
something there, in whatever way this is said, and to the same whatever the program is. -/
theorem Course.exists_settles {ι ε : Type} {programs : ι → Module}
    (C : ∀ i, ({ E with program := programs i } : Setting).Course ε)
    {lift : Except Fault.Kind Value → Except ε Value} (hlift : ∀ i, (C i).lift = lift)
    (hvalues : ∀ p ∈ E.scope.names, (E.kept? p.2.slot).isSome) :
    ∀ (e : Expression) {s t : Scope} {type : CType}, e.isPure = true → E.Sees s →
      Emission.Code s (.value e type) t → ∃ outcome, ∀ i, (C i).Settles (.value e) type outcome := by
  intro e
  induction e using Expression.isPure.induct
  all_goals intro s t type hpure hs hcode
  case case1 span n =>
    cases hcode with
    | intLiteral hfits => exact ⟨_, fun i => .literal hfits⟩
    | longLiteral hlong => exact ⟨_, fun i => .longLiteral hlong⟩
    | load haddress => cases haddress
  case case2 span name =>
    cases hcode with
    | identifier hfound =>
      rw [hs.findVariable?] at hfound
      obtain ⟨v, hv⟩ := Option.isSome_iff_exists.1 (hvalues _ (Scope.mem_names_of_findVariable? hfound))
      exact ⟨_, fun i => .read hfound hv⟩
    | load haddress => cases haddress
  case case3 span op left right ihl ihr =>
    obtain ⟨hlpure, hrpure⟩ := Bool.and_eq_true_iff.1 hpure
    cases hcode with
    | @logical _ u _ _ _ _ op _ _ _ _ hleft _ hright =>
      have hjump : u.Emits (u.append [] [.branchIf op.decisive s.nextLabel]) :=
        Scope.emits_append _ _ (by simp [Instruction.isPlain])
      have hreserved := hs.emits (Scope.emits_reserve s 2)
      obtain ⟨first, hfirst⟩ := ihl hlpure hreserved hleft
      obtain ⟨second, hsecond⟩ := ihr hrpure ((hreserved.emits hleft.emits).emits hjump) hright
      exact ⟨_, fun i => (hfirst i).logical (hsecond i)⟩
    | binary hleft hright hoperator =>
      obtain ⟨first, hfirst⟩ := ihl hlpure hs hleft
      obtain ⟨second, hsecond⟩ := ihr hrpure (hs.emits hleft.emits) hright
      have hlogical : ∀ op', op ≠ .logical op' := by
        rintro op' rfl
        cases hoperator
      exact ⟨_, fun i => hoperator.type_eq ▸ hlift i ▸ (hfirst i).operator hlogical (hsecond i)⟩
    | load haddress => cases haddress
  case case4 span array index iha ihi =>
    obtain ⟨hapure, hipure⟩ := Bool.and_eq_true_iff.1 hpure
    cases hcode with
    | @load _ _ _ _ stored haddress htarget =>
      cases haddress with
      | subscript harray hindex hoperator =>
        obtain ⟨first, hfirst⟩ := iha hapure hs harray
        obtain ⟨second, hsecond⟩ := ihi hipure (hs.emits harray.emits) hindex
        have helement := hoperator.type_eq.symm
        exact ⟨_ >>= fun v => lift (E.load stored v), fun i =>
          hlift i ▸ ((hfirst i).subscript (hsecond i) helement).load rfl htarget⟩
  case case5 span op operand ih =>
    cases hcode with
    | negate he | bitNot he | logicalNot he =>
      obtain ⟨outcome, houtcome⟩ := ih hpure hs he
      exact ⟨_, fun i => hlift i ▸ (houtcome i).unary (by simp)⟩
    | @load _ _ _ _ stored haddress htarget =>
      cases haddress with
      | dereference he =>
        obtain ⟨outcome, houtcome⟩ := ih hpure hs he
        exact ⟨outcome >>= fun v => lift (E.load stored v), fun i =>
          hlift i ▸ (houtcome i).dereference.load rfl htarget⟩
  all_goals cases hpure

/-- An expression without side effects gives something. -/
theorem exists_gives (hvalues : ∀ p ∈ E.scope.names, (E.kept? p.2.slot).isSome) (hpure : e.isPure = true)
    (hs : E.Sees s) (hcode : Emission.Code s (.value e type) t) : ∃ outcome, E.Gives e type outcome := by
  obtain ⟨outcome, h⟩ := Course.exists_settles (fun _ : Unit => E.course) (fun _ => rfl) hvalues e hpure hs hcode
  exact ⟨outcome, .of_settles (h ())⟩

end Setting

/-! ## Calls of compiled functions -/

namespace CompiledFunction

variable {f : CompiledFunction} {s t : Scope} {e : Expression} {type : CType} {a : Activation}

/-- A call of a function is where the compilation has come to, and each of its variables has a value. -/
structure Stands (f : CompiledFunction) (s : Scope) (a : Activation) : Prop where
  visits : f.Visits s
  kept : s.assembler.method.Extends f.method
  addressable : f.method.Addressable
  method : a.method = f.method
  sized : a.Sized
  pc : a.pc = s.offset

namespace Stands

/-- The call is in the setting that its variables and memory make. -/
theorem has (h : f.Stands s a) (program : Module) (store : Store) :
    Setting.Has ⟨program, s, a.kept?, store⟩ s a where
  sees := rfl
  below := by
    have hself : s.assembler.method.Addressable :=
      ⟨h.kept.parameters ▸ h.addressable.parameters,
        Nat.le_trans h.kept.locals_le h.addressable.locals⟩
    intro p hp
    obtain ⟨target, -, hdeclares⟩ := h.visits.declares (.refl _) hself p hp
    cases hslot : p.2.slot with
    | parameter => trivial
    | «local» index =>
      rw [hslot] at hdeclares
      cases hdeclares with
      | «local» hlocal => exact (Array.getElem?_eq_some_iff.1 hlocal).1
  addressable := h.method ▸ h.addressable.locals
  sized := h.sized
  pc := h.pc
  kept _ _ := rfl

/-- Each variable in scope is declared in the method of the call. -/
theorem declares (h : f.Stands s a) {p : String × Variable} (hp : p ∈ s.names) :
    ∃ target, a.method.Declares p.2.slot target := by
  obtain ⟨target, -, hdeclares⟩ := h.visits.declares h.kept h.addressable p hp
  exact ⟨target, h.method ▸ hdeclares⟩

/-- An expression without side effects that is compiled there gives something. -/
theorem exists_gives (h : f.Stands s a) (hpure : e.isPure = true) (hcompile : Yields e.compile s type t)
    (program : Module) (store : Store) :
    ∃ outcome, Setting.Gives ⟨program, s, a.kept?, store⟩ e type outcome := by
  have hvalues : ∀ p ∈ s.names, (a.kept? p.2.slot).isSome := by
    intro p hp
    obtain ⟨target, hdeclares⟩ := h.declares hp
    exact h.sized.isSome_kept? hdeclares
  exact Setting.exists_gives hvalues hpure (h.has program store).sees (e.code_compile hcompile)

end Stands

end CompiledFunction

end ManagedC
