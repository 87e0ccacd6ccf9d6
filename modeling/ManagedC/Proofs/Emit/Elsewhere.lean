import ManagedC.Proofs.Emit.ExpressionCode
import ManagedC.Proofs.Emit.Labels

/-!
# Code that is emitted elsewhere

The code of an expression depends on where it is emitted: temporaries and labels get other numbers. Whether
it can be emitted does not, nor does the type, as long as the same names are in scope and labels are handed out
before they are bound (`Emit.Alike`). This passes from the parts of an expression to the whole
(`Emit.Alike.compileExpression`), so that an expression that can be emitted can be emitted twice. Main
statement: a combined assignment can be emitted if and only if the assignment that it is short for can
(`Expression.compiles_update_iff`).
-/

namespace ManagedC

open Yields

namespace Scope

/-- The same names and functions can be referred to. -/
def Agrees (s t : Scope) : Prop := t = { s with assembler := t.assembler }

/-- A label is bound. -/
def HasLabel (s : Scope) (label : Label) : Prop := s.assembler.method.body.labels.isBound label = true

/-- Labels are handed out before they are bound. -/
def Allots (s : Scope) : Prop := ∀ label, s.HasLabel label → label < s.nextLabel

/-- From one scope to another, the names stay as they are, and labels are bound only after they have been handed
out on the way. -/
structure Continues (s t : Scope) : Prop where
  agrees : s.Agrees t
  le : s.nextLabel ≤ t.nextLabel
  own : ∀ label, t.HasLabel label → s.HasLabel label ∨ s.nextLabel ≤ label ∧ label < t.nextLabel

/-- The scope with a label bound to the next instruction. -/
def withLabel (s : Scope) (label : Label) : Scope := { s with assembler := s.assembler.bind label }

variable {s s' t t' u : Scope} {least : Nat} {pending : List Label} {label : Label}

namespace Agrees

theorem refl (s : Scope) : s.Agrees s := rfl

theorem findVariable? (h : s.Agrees t) (name : String) : t.findVariable? name = s.findVariable? name := by
  rw [h]
  rfl

theorem findFunction? (h : s.Agrees t) (name : String) : t.findFunction? name = s.findFunction? name := by
  rw [h]
  rfl

theorem symm (h : s.Agrees t) : t.Agrees s := by
  unfold Agrees at *
  rw [h]

theorem trans (h : s.Agrees t) (h' : t.Agrees u) : s.Agrees u := by
  unfold Agrees at *
  rw [h', h]

/-- Scopes agree whatever is emitted. -/
theorem emits (h : s.Agrees s') (ht : s.Agrees t) (ht' : s'.Agrees t') : t.Agrees t' :=
  (ht.symm.trans h).trans ht'

end Agrees

/-- Where labels are kept track of, they are handed out before they are bound. -/
theorem Tracks.allots (h : s.Tracks least pending) : s.Allots := fun label hlabel =>
  (h.handed label).2 (.inl hlabel)

theorem hasLabel_withLabel {l : Label} : (s.withLabel label).HasLabel l ↔ l = label ∨ s.HasLabel l :=
  LabelTable.isBound_insert

namespace Continues

theorem refl (s : Scope) : s.Continues s := ⟨rfl, Nat.le_refl _, fun _ => .inl⟩

theorem trans (h : s.Continues t) (h' : t.Continues u) : s.Continues u := by
  refine ⟨h.agrees.trans h'.agrees, Nat.le_trans h.le h'.le, ?_⟩
  intro label hlabel
  rcases h'.own label hlabel with hlabel | ⟨hle, hlt⟩
  · exact (h.own label hlabel).imp_right fun ⟨hle, hlt⟩ => ⟨hle, Nat.lt_of_lt_of_le hlt h'.le⟩
  · exact .inr ⟨Nat.le_trans h.le hle, hlt⟩

theorem append (s : Scope) (ts : List TargetType) (code : List Instruction) :
    s.Continues (s.append ts code) := ⟨rfl, Nat.le_refl _, fun _ => .inl⟩

theorem reserve (s : Scope) (count : Nat) : s.Continues (s.reserve count) :=
  ⟨rfl, Nat.le_add_right _ _, fun _ => .inl⟩

/-- Labels are still handed out before they are bound. -/
theorem allots (h : s.Continues t) (hs : s.Allots) : t.Allots := by
  intro label hlabel
  rcases h.own label hlabel with hlabel | ⟨-, hlt⟩
  · exact Nat.lt_of_lt_of_le (hs label hlabel) h.le
  · exact hlt

/-- A label that was handed out and not bound before is still not bound. -/
theorem not_hasLabel (h : s.Continues t) (hlabel : ¬ s.HasLabel label) (hlt : label < s.nextLabel) :
    ¬ t.HasLabel label := by
  intro ht
  rcases h.own label ht with hs | ⟨hle, -⟩
  · exact hlabel hs
  · exact Nat.not_le_of_lt hlt hle

end Continues

end Scope

namespace Emit

variable {α β : Type}

/-- A label that was handed out and is not bound yet can be bound. -/
theorem yields_mark_of {s : Scope} {label : Label} (hlt : label < s.nextLabel)
    (hfree : ¬ s.HasLabel label) : Yields (mark label) s () (s.withLabel label) := by
  unfold Scope.HasLabel at hfree
  unfold Yields mark assemble
  rw [Assembly.mark_apply, if_neg (Nat.not_le.2 hlt), if_neg hfree]
  rfl

/-- A temporary can always be added. -/
theorem addTemporary_yields (type : TargetType) (s : Scope) :
    Yields (addTemporary type) s s.nextSlot (s.append [type] []) := by
  unfold Scope.append
  simp only [List.map_cons, List.map_nil, Array.append_empty]
  rfl

/-- Two computations fail, or they have one answer and leave the names as they are. -/
inductive Matches (s s' : Scope) : Except CompileError α × Scope → Except CompileError α × Scope → Prop where
  | fails {e e' : CompileError} {t t' : Scope} : Matches s s' (.error e, t) (.error e', t')
  | yields {a : α} {t t' : Scope} : s.Continues t → s'.Continues t' →
    Matches s s' (.ok a, t) (.ok a, t')

/-- Two computations in sequence with two others. -/
theorem Matches.bind {x y : Emit α} {f g : α → Emit β} {r r' s s' u u' : Scope}
    (hx : Matches r r' (x u) (y u'))
    (hf : ∀ a t t', r.Continues t → r'.Continues t' → Matches s s' (f a t) (g a t')) :
    Matches s s' ((x >>= f) u) ((y >>= g) u') := by
  rw [bind_apply, bind_apply]
  generalize x u = p, y u' = p' at hx
  cases hx with
  | fails => exact .fails
  | yields h h' => exact hf _ _ _ h h'

theorem Matches.weaken {s s' t t' : Scope} {r r' : Except CompileError α × Scope} (h : Matches t t' r r')
    (hown : s.Continues t) (hown' : s'.Continues t') : Matches s s' r r' := by
  cases h with
  | fails => exact .fails
  | yields h h' => exact .yields (hown.trans h) (hown'.trans h')

/-- Wherever the same names are in scope, two computations both fail or have one answer. -/
structure Alike (x y : Emit α) : Prop where
  /-- One is as the other. -/
  results : ∀ {s s' : Scope}, s.Agrees s' → s.Allots → s'.Allots → Matches s s' (x s) (y s')

namespace Alike

variable {x y : Emit α} {f g : α → Emit β} {s s' t : Scope} {a : α}

/-- What one computation answers, the other one does. -/
theorem yields (h : Alike x y) (hs : s.Agrees s') (hallots : s.Allots) (hallots' : s'.Allots)
    (hx : Yields x s a t) :
    ∃ t', Yields y s' a t' ∧ s.Continues t ∧ s'.Continues t' := by
  have hmatches := h.results hs hallots hallots'
  rw [hx] at hmatches
  generalize hy : y s' = r at hmatches
  cases hmatches with
  | yields ht ht' => exact ⟨_, hy, ht, ht'⟩

theorem symm (h : Alike x y) : Alike y x := by
  refine ⟨fun {s s'} hagrees hs hs' => ?_⟩
  have hmatches := h.results hagrees.symm hs' hs
  generalize x s' = r, y s = r' at hmatches
  cases hmatches with
  | fails => exact .fails
  | yields ht ht' => exact .yields ht' ht

/-- If one computation has an answer, so has the other one. -/
theorem exists_yields_iff (h : Alike x y) (hs : s.Allots) :
    (∃ t, Yields x s a t) ↔ ∃ t, Yields y s a t := by
  constructor
  · rintro ⟨t, hx⟩
    obtain ⟨t', hy, -⟩ := h.yields (.refl s) hs hs hx
    exact ⟨t', hy⟩
  · rintro ⟨t, hy⟩
    obtain ⟨t', hx, -⟩ := h.symm.yields (.refl s) hs hs hy
    exact ⟨t', hx⟩

theorem pure (a : α) : Alike (Pure.pure a) (Pure.pure a) :=
  ⟨fun _ _ _ => .yields (.refl _) (.refl _)⟩

theorem refuse (refusal refusal' : Refusal) (location location' : Location) :
    Alike (Emit.refuse refusal location : Emit α) (Emit.refuse refusal' location') := ⟨fun _ _ _ => .fails⟩

theorem missing (feature feature' : MissingFeature) (location location' : Location) :
    Alike (Emit.missing feature location : Emit α) (Emit.missing feature' location') := ⟨fun _ _ _ => .fails⟩

theorem throw (e e' : CompileError) :
    Alike (MonadExcept.throw e : Emit α) (MonadExcept.throw e') := ⟨fun _ _ _ => .fails⟩

theorem bind (hx : Alike x y) (hf : ∀ a, Alike (f a) (g a)) : Alike (x >>= f) (y >>= g) :=
  ⟨fun h hs hs' => (hx.results h hs hs').bind fun a _ _ ht ht' =>
    ((hf a).results (h.emits ht.agrees ht'.agrees) (ht.allots hs) (ht'.allots hs')).weaken ht ht'⟩

/-- A look at the scope. -/
theorem get {f g : Scope → Emit β} (h : ∀ s s', s.Agrees s' → Alike (f s) (g s')) :
    Alike (MonadState.get >>= f) (MonadState.get >>= g) := by
  refine ⟨fun {s s'} hagrees hs hs' => ?_⟩
  rw [get_bind_apply, get_bind_apply]
  exact (h s s' hagrees).results hagrees hs hs'

/-- Instructions can always be emitted. -/
theorem instr (i i' : Instruction) : Alike (Emit.instr i) (Emit.instr i') := by
  refine ⟨fun {s s'} _ _ _ => ?_⟩
  have hx : Yields (Emit.instr i) s () (s.append [] [i]) := yields_instr.2 rfl
  have hy : Yields (Emit.instr i') s' () (s'.append [] [i']) := yields_instr.2 rfl
  rw [hx, hy]
  exact .yields (.append s _ _) (.append s' _ _)

/-- Temporaries can always be added, and it does not matter which numbers they get. -/
theorem temporary {f g : UInt16 → Emit β} (type : TargetType) (h : ∀ slot slot', Alike (f slot) (g slot')) :
    Alike (Emit.addTemporary type >>= f) (Emit.addTemporary type >>= g) := by
  refine ⟨fun {s s'} hagrees hs hs' => ?_⟩
  rw [bind_apply, bind_apply, addTemporary_yields type s, addTemporary_yields type s']
  have hown := Scope.Continues.append s [type] []
  have hown' := Scope.Continues.append s' [type] []
  have hadded := hagrees.emits hown.agrees hown'.agrees
  exact ((h _ _).results hadded (hown.allots hs) (hown'.allots hs')).weaken hown hown'

/-- Something is done first under a condition. -/
theorem optionally {c : Prop} [Decidable c] {rest rest' : Emit β} (hx : Alike x y)
    (hrest : Alike rest rest') :
    Alike (if c then x >>= fun _ => rest else rest) (if c then y >>= fun _ => rest' else rest') := by
  split
  · exact hx.bind fun _ => hrest
  · exact hrest

theorem choice {c : Prop} [Decidable c] {x' y' : Emit α} (hx : Alike x y) (hx' : Alike x' y') :
    Alike (if c then x else x') (if c then y else y') := by
  split
  · exact hx
  · exact hx'

theorem represent (type : CType) (location location' : Location) :
    Alike (Emit.represent type location) (Emit.represent type location') := by
  refine ⟨fun {s s'} _ _ _ => ?_⟩
  show Matches s s' (type.represent _ _, s) (type.represent _ _, s')
  unfold CType.represent
  cases type.target with
  | error => exact .fails
  | ok => exact .yields (.refl _) (.refl _)

theorem lookupVariable (name : String) (location location' : Location) :
    Alike (Emit.lookupVariable name location) (Emit.lookupVariable name location') := by
  refine .get fun s s' h => ?_
  rw [h.findVariable?]
  split
  · exact .pure _
  · exact .refuse _ _ _ _

/-! ## Operators -/

theorem negation : Alike Emit.negation Emit.negation := (instr _ _).bind fun _ => instr _ _

theorem comparison (op : ComparisonOp) : Alike (Emit.comparison op) (Emit.comparison op) :=
  (instr _ _).bind fun _ => .choice negation (.pure _)

theorem underTop (type : TargetType) {code : Emit Unit} (h : Alike code code) :
    Alike (Emit.underTop type code) (Emit.underTop type code) :=
  .temporary type fun _ _ => (instr _ _).bind fun _ => h.bind fun _ => instr _ _

theorem nativeSize (size : Int32) : Alike (Emit.nativeSize size) (Emit.nativeSize size) :=
  (instr _ _).bind fun _ => instr _ _

theorem scale (size : Int32) : Alike (Emit.scale size) (Emit.scale size) :=
  (instr _ _).bind fun _ => .choice ((nativeSize size).bind fun _ => instr _ _) (.pure _)

theorem unifyIntegers (left right : CType) :
    Alike (Emit.unifyIntegers left right) (Emit.unifyIntegers left right) :=
  .choice (.optionally (instr _ _) (.choice ((instr _ _).underTop _) (.pure _))) (.pure _)

section

variable (location location' : Location)

theorem stepSize (pointer : CType) :
    Alike (Emit.stepSize pointer location) (Emit.stepSize pointer location') := by
  unfold Emit.stepSize
  split
  · exact .choice (.pure _) (.refuse _ _ _ _)
  · exact .refuse _ _ _ _

theorem coerce (source target : CType) :
    Alike (Emit.coerce source target location) (Emit.coerce source target location') := by
  unfold Emit.coerce
  refine .choice (.pure _) ?_
  split
  · exact .pure _
  · exact .choice (instr _ _) (.refuse _ _ _ _)
  · exact .choice (.choice (instr _ _) (.choice (instr _ _) (.pure _))) (.refuse _ _ _ _)

theorem pointerArithmetic (op : ArithmeticOp) (left right : CType) :
    Alike (Emit.pointerArithmetic op left right location)
      (Emit.pointerArithmetic op left right location') := by
  have hsteps : ∀ i pointer, Alike (Emit.pointerThenSteps i pointer location)
      (Emit.pointerThenSteps i pointer location') := fun _ _ =>
    (stepSize _ _ _).bind fun _ => (scale _).bind fun _ => (instr _ _).bind fun _ => .pure _
  have hbehind : ∀ pointer, Alike (Emit.stepsThenPointer pointer location)
      (Emit.stepsThenPointer pointer location') := fun _ =>
    (stepSize _ _ _).bind fun _ => (represent _ _ _).bind fun _ => ((scale _).underTop _).bind fun _ =>
      (instr _ _).bind fun _ => .pure _
  have hend : Alike (Emit.instr .convInt64 >>= fun _ => Pure.pure CType.long)
      (Emit.instr .convInt64 >>= fun _ => Pure.pure CType.long) := (instr _ _).bind fun _ => .pure _
  have hdifference : ∀ pointer, Alike (Emit.pointerDifference pointer location)
      (Emit.pointerDifference pointer location') := fun _ =>
    (stepSize _ _ _).bind fun _ => (instr _ _).bind fun _ =>
      .choice ((nativeSize _).bind fun _ => (instr _ _).bind fun _ => hend) hend
  unfold Emit.pointerArithmetic
  cases op with
  | add => exact .choice (hsteps _ _) (.choice (hbehind _) (.refuse _ _ _ _))
  | sub => exact .choice (hsteps _ _) (.choice (hdifference _) (.refuse _ _ _ _))
  | _ => exact .refuse _ _ _ _

theorem applyBinary (op : BinaryOp) (left right : CType) :
    Alike (Emit.applyBinary op left right location) (Emit.applyBinary op left right location') := by
  have hinteger : Alike (Emit.integerOperation op left right) (Emit.integerOperation op left right) := by
    refine (unifyIntegers left right).bind fun _ => ?_
    cases op with
    | comparison op => exact (comparison op).bind fun _ => .pure _
    | arithmetic op => exact (instr _ _).bind fun _ => .pure _
    | logical op => exact .throw _ _
  refine .choice (.missing _ _ _ _) (.choice hinteger ?_)
  cases op with
  | comparison op =>
    exact .choice (.choice ((comparison op).bind fun _ => .pure _) (.refuse _ _ _ _)) (.refuse _ _ _ _)
  | arithmetic op => exact pointerArithmetic location location' op left right
  | logical op => exact .refuse _ _ _ _

end

/-! ## Parts of expressions -/

variable {operand operand' pointer pointer' array array' index index' : Emit CType}

theorem condition (location location' : Location) (h : Alike operand operand') :
    Alike (Emit.condition location operand) (Emit.condition location' operand') :=
  h.bind fun _ => .optionally (.missing _ _ _ _) (.choice (.refuse _ _ _ _) (.pure _))

theorem address (location location' : Location) (h : Alike pointer pointer') :
    Alike (Emit.address location pointer) (Emit.address location' pointer') := by
  refine h.bind fun type => ?_
  split
  · exact .choice (.refuse _ _ _ _) (.pure _)
  · exact .refuse _ _ _ _

theorem elementAddress (location location' : Location) (harray : Alike array array')
    (hindex : Alike index index') :
    Alike (Emit.elementAddress location array index) (Emit.elementAddress location' array' index') := by
  refine harray.bind fun left => hindex.bind fun right => .choice ?_ (.refuse _ _ _ _)
  refine (applyBinary _ _ _ _ _).bind fun type => ?_
  split
  · exact .choice (.refuse _ _ _ _) (.pure _)
  · exact .refuse _ _ _ _

theorem loadThrough (type : CType) (location location' : Location) :
    Alike (Emit.loadThrough type location) (Emit.loadThrough type location') :=
  (represent _ _ _).bind fun _ => (instr _ _).bind fun _ => .pure _

theorem applyUnary (op : UnaryOp) (location operandLocation : Location) (h : Alike operand operand) :
    Alike (Emit.applyUnary op location operandLocation operand)
      (Emit.applyUnary op location operandLocation operand) := by
  have harithmetic : ∀ i, Alike (Emit.applyUnary.arithmetic op location operand i)
      (Emit.applyUnary.arithmetic op location operand i) := fun _ =>
    h.bind fun _ => .optionally (.refuse _ _ _ _) ((instr _ _).bind fun _ => .pure _)
  cases op with
  | dereference => exact (h.address _ _).bind fun _ => loadThrough _ _ _
  | logicalNot => exact (h.condition _ _).bind fun _ => negation.bind fun _ => .pure _
  | negate => exact harithmetic .neg
  | bitNot => exact harithmetic .not

/-! ## Logical operators -/

end Alike

/-- What follows the operands of a logical operator: the truth value is pushed, depending on whether an operand
has decided. -/
def settle (op : LogicalOp) (decided stop : Label) : Emit CType := do
  instr (.branchIf op.decisive decided)
  instr (.constInt32 (1 - op.decidedValue))
  instr (.branch stop)
  mark decided
  instr (.constInt32 op.decidedValue)
  mark stop
  return .int

/-- Two labels are handed out for the operator. -/
theorem shortCircuit_apply (op : LogicalOp) (left right : Emit Unit) (s : Scope) :
    shortCircuit op left right s =
      ((left >>= fun _ => instr (.branchIf op.decisive s.nextLabel) >>= fun _ => right) >>= fun _ =>
        settle op s.nextLabel (s.nextLabel + 1)) (s.reserve 2) := by
  simp only [bind_assoc]
  cases op <;> rfl

/-- Two labels that were handed out and are not bound yet are bound. -/
theorem yields_settle (op : LogicalOp) {s : Scope} {decided stop : Label} (hne : stop ≠ decided)
    (hdecided : decided < s.nextLabel) (hstop : stop < s.nextLabel) (hfree : ¬ s.HasLabel decided)
    (hfree' : ¬ s.HasLabel stop) : ∃ t, Yields (settle op decided stop) s .int t ∧ s.Agrees t ∧
      t.nextLabel = s.nextLabel ∧ ∀ l, t.HasLabel l → s.HasLabel l ∨ l = decided ∨ l = stop := by
  obtain ⟨u, hu⟩ : ∃ u, u = ((s.append [] [.branchIf op.decisive decided]).append []
    [.constInt32 (1 - op.decidedValue)]).append [] [.branch stop] := ⟨_, rfl⟩
  have hnext : u.nextLabel = s.nextLabel := hu ▸ rfl
  have hagrees : s.Agrees u := hu ▸ rfl
  have hlabels : ∀ l, u.HasLabel l ↔ s.HasLabel l := fun _ => hu ▸ Iff.rfl
  have hmark : Yields (mark decided) u () (u.withLabel decided) :=
    yields_mark_of (hnext ▸ hdecided) ((hlabels _).not.2 hfree)
  obtain ⟨v, hv⟩ : ∃ v, v = (u.withLabel decided).append [] [.constInt32 op.decidedValue] := ⟨_, rfl⟩
  have hnext' : v.nextLabel = s.nextLabel := (hv ▸ rfl : v.nextLabel = u.nextLabel).trans hnext
  have hlabels' : ∀ l, v.HasLabel l ↔ l = decided ∨ s.HasLabel l := fun l =>
    (hv ▸ Scope.hasLabel_withLabel : v.HasLabel l ↔ l = decided ∨ u.HasLabel l).trans
      (or_congr Iff.rfl (hlabels l))
  have hmark' : Yields (mark stop) v () (v.withLabel stop) := by
    refine yields_mark_of (hnext' ▸ hstop) fun hl => ?_
    exact ((hlabels' stop).1 hl).elim hne hfree'
  refine ⟨v.withLabel stop, ?_, ?_, hnext', fun l hl => ?_⟩
  · unfold settle
    simp only [bind_iff, yields_instr, pure_iff]
    exact ⟨(), _, rfl, (), _, rfl, (), _, hu, _, _, hmark, (), _, hv, _, _, hmark', trivial, rfl⟩
  · exact hagrees.emits rfl (hv ▸ rfl : u.Agrees (v.withLabel stop))
  · rcases Scope.hasLabel_withLabel.1 hl with rfl | hl
    · exact .inr (.inr rfl)
    · exact ((hlabels' l).1 hl).elim (fun heq => .inr (.inl heq)) .inl

namespace Alike

theorem shortCircuit (op : LogicalOp) {left left' right right' : Emit Unit} (hleft : Alike left left')
    (hright : Alike right right') :
    Alike (Emit.shortCircuit op left right) (Emit.shortCircuit op left' right') := by
  -- Of the labels of the operator, none is bound by the code of an operand.
  have hsettle : ∀ {s v : Scope}, s.Allots → (s.reserve 2).Continues v →
      ∃ t, Yields (settle op s.nextLabel (s.nextLabel + 1)) v .int t ∧ s.Continues t := by
    intro s v hs hown
    have hnone : ∀ l, s.nextLabel ≤ l → l < s.nextLabel + 2 → ¬ v.HasLabel l := fun l hle hlt =>
      hown.not_hasLabel (fun hl => Nat.not_lt.2 hle (hs l hl)) hlt
    have hsecond : s.nextLabel + 1 < s.nextLabel + 2 := Nat.lt_succ_self _
    have hfirst : s.nextLabel < s.nextLabel + 2 := Nat.lt_succ_of_lt (Nat.lt_succ_self _)
    have hstop : s.nextLabel + 1 < v.nextLabel := Nat.lt_of_lt_of_le hsecond hown.le
    have hdecided : s.nextLabel < v.nextLabel := Nat.lt_of_lt_of_le hfirst hown.le
    obtain ⟨t, ht, hagrees, hnext, hlabels⟩ := yields_settle op (Nat.succ_ne_self s.nextLabel) hdecided hstop
      (hnone _ (Nat.le_refl _) hfirst) (hnone _ (Nat.le_succ _) hsecond)
    refine ⟨t, ht, hown.agrees.trans hagrees, hnext ▸ Nat.le_of_lt hdecided, fun l hl => ?_⟩
    rw [hnext]
    rcases hlabels l hl with hl | rfl | rfl
    · exact ((Scope.Continues.reserve s 2).trans hown).own l hl
    · exact .inr ⟨Nat.le_refl _, hdecided⟩
    · exact .inr ⟨Nat.le_succ _, hstop⟩
  refine ⟨fun {s s'} h hs hs' => ?_⟩
  rw [shortCircuit_apply, shortCircuit_apply]
  have hbegin := Scope.Continues.reserve s 2
  have hbegin' := Scope.Continues.reserve s' 2
  have hbranch : Alike (Emit.instr (.branchIf op.decisive s.nextLabel))
      (Emit.instr (.branchIf op.decisive s'.nextLabel)) := instr _ _
  have hoperands := (hleft.bind fun _ => hbranch.bind fun _ => hright).results
    (h.emits hbegin.agrees hbegin'.agrees) (hbegin.allots hs) (hbegin'.allots hs')
  refine hoperands.bind fun _ v v' hv hv' => ?_
  obtain ⟨t, ht, hst⟩ := hsettle hs hv
  obtain ⟨t', ht', hst'⟩ := hsettle hs' hv'
  rw [ht, ht']
  exact .yields hst hst'

/-! ## Assignments and calls -/

variable {value value' target target' : Emit CType}

/-- The end of an assignment to a variable. -/
theorem storeVariable (v : Variable) (type : CType) (location location' : Location) :
    Alike (Emit.coerce type v.type location >>= fun _ => Emit.instr .dup >>= fun _ =>
        Emit.instr v.store >>= fun _ => Pure.pure v.type)
      (Emit.coerce type v.type location' >>= fun _ => Emit.instr .dup >>= fun _ =>
        Emit.instr v.store >>= fun _ => Pure.pure v.type) :=
  (coerce _ _ _ _).bind fun _ => (instr _ _).bind fun _ => (instr _ _).bind fun _ => .pure _

theorem assignVariable (op : Option BinaryOp) (name : String) (location location' : Location)
    (h : Alike value value') : Alike (Emit.assignVariable op name location value)
      (Emit.assignVariable op name location' value') := by
  refine (lookupVariable _ _ _).bind fun v => ?_
  cases op with
  | none => exact h.bind fun _ => storeVariable _ _ _ _
  | some op =>
    exact (instr _ _).bind fun _ => h.bind fun _ => (applyBinary _ _ _ _ _).bind fun _ =>
      storeVariable _ _ _ _

/-- The end of an assignment through an address. -/
theorem storeThrough (stored : TargetType) (type element : CType) (location location' : Location) :
    Alike (Emit.coerce type element location >>= fun _ => Emit.addTemporary stored >>= fun temporary =>
        Emit.instr .dup >>= fun _ => Emit.instr (.storeLocal temporary) >>= fun _ =>
        Emit.instr (.store stored) >>= fun _ => Emit.instr (.loadLocal temporary) >>= fun _ =>
        Pure.pure element)
      (Emit.coerce type element location' >>= fun _ => Emit.addTemporary stored >>= fun temporary =>
        Emit.instr .dup >>= fun _ => Emit.instr (.storeLocal temporary) >>= fun _ =>
        Emit.instr (.store stored) >>= fun _ => Emit.instr (.loadLocal temporary) >>= fun _ =>
        Pure.pure element) :=
  (coerce _ _ _ _).bind fun _ => .temporary _ fun _ _ => (instr _ _).bind fun _ => (instr _ _).bind fun _ =>
    (instr _ _).bind fun _ => (instr _ _).bind fun _ => .pure _

theorem assignThrough (op : Option BinaryOp) (location location' : Location) (htarget : Alike target target')
    (hvalue : Alike value value') : Alike (Emit.assignThrough op target location value)
      (Emit.assignThrough op target' location' value') := by
  refine htarget.bind fun element => (represent _ _ _).bind fun stored => ?_
  cases op with
  | none => exact hvalue.bind fun _ => storeThrough _ _ _ _ _
  | some op =>
    exact (instr _ _).bind fun _ => (instr _ _).bind fun _ => hvalue.bind fun _ =>
      (applyBinary _ _ _ _ _).bind fun _ => storeThrough _ _ _ _ _

theorem callFunction (name : String) (count : Nat) {arguments : List CType → Emit Unit}
    (location : Location) (h : ∀ types, Alike (arguments types) (arguments types)) :
    Alike (Emit.callFunction name count arguments location)
      (Emit.callFunction name count arguments location) := by
  refine .get fun s s' hagrees => ?_
  rw [hagrees.findFunction?]
  split
  · exact .refuse _ _ _ _
  · rename_i signature _
    have hcall : ∀ types, Alike (arguments types >>= fun _ => Emit.instr (.call signature.method) >>=
        fun _ => Pure.pure signature.returnType) (arguments types >>= fun _ =>
        Emit.instr (.call signature.method) >>= fun _ => Pure.pure signature.returnType) := fun types =>
      (h types).bind fun _ => (instr _ _).bind fun _ => .pure _
    cases signature.parameters with
    | some types => exact (pure _).bind fun _ => .optionally (.refuse _ _ _ _) (hcall _)
    | none =>
      dsimp only
      split
      · exact (pure _).bind fun _ => .optionally (.refuse _ _ _ _) (hcall _)
      · exact (missing _ _ _ _).bind fun _ => .optionally (.refuse _ _ _ _) (hcall _)

/-! ## Expressions -/

mutual

/-- Whether an expression can be emitted, and its type, depends on the names in scope only. -/
theorem compileExpression : ∀ e : Expression, Alike e.compile e.compile
  | .intLiteral _ value => by
    unfold Expression.compile
    split <;> exact (instr _ _).bind fun _ => .pure _
  | .identifier span name => by
    unfold Expression.compile
    exact (lookupVariable _ _ _).bind fun _ => (instr _ _).bind fun _ => .pure _
  | .binary _ op left right => by
    have hleft := compileExpression left
    have hright := compileExpression right
    cases op with
    | logical op =>
      unfold Expression.compile
      exact .shortCircuit op (hleft.condition _ _) (hright.condition _ _)
    | arithmetic op | comparison op =>
      unfold Expression.compile
      exact hleft.bind fun _ => hright.bind fun _ => applyBinary _ _ _ _ _
  | .unary span op operand => by
    unfold Expression.compile
    exact (compileExpression operand).applyUnary _ _ _
  | .assignment span op target value => by
    have hvalue := compileExpression value
    cases target with
    | identifier _ name =>
      unfold Expression.compile
      exact hvalue.assignVariable _ _ _ _
    | subscript _ array index =>
      have harray := compileExpression array
      have hindex := compileExpression index
      unfold Expression.compile
      exact (harray.elementAddress _ _ hindex).assignThrough _ _ _ hvalue
    | unary _ uop pointer =>
      have hpointer := compileExpression pointer
      cases uop with
      | dereference =>
        unfold Expression.compile
        exact (hpointer.address _ _).assignThrough _ _ _ hvalue
      | _ =>
        unfold Expression.compile
        exact .refuse _ _ _ _
    | _ =>
      unfold Expression.compile
      exact .refuse _ _ _ _
  | .call span function arguments => by
    have harguments := compileArguments arguments
    cases function with
    | identifier _ name =>
      unfold Expression.compile
      exact callFunction _ _ _ harguments
    | _ =>
      unfold Expression.compile
      exact .missing _ _ _ _
  | .subscript span array index => by
    have harray := compileExpression array
    have hindex := compileExpression index
    unfold Expression.compile
    exact (harray.elementAddress _ _ hindex).bind fun _ => loadThrough _ _ _

theorem compileArguments : ∀ (arguments : List Expression) (types : List CType),
    Alike (Expression.compileArguments arguments types) (Expression.compileArguments arguments types)
  | [], types => by
    unfold Expression.compileArguments
    exact .pure _
  | argument :: arguments, types => by
    have hargument := compileExpression argument
    have hrest := compileArguments arguments
    cases types with
    | nil =>
      unfold Expression.compileArguments
      exact .pure _
    | cons type types =>
      unfold Expression.compileArguments
      exact hargument.bind fun _ => (coerce _ _ _ _).bind fun _ => hrest types

end

end Alike

/-! ## Combined assignments -/

variable {s t : Scope} {type : CType} {op : BinaryOp} {value address : Emit CType}

/-- The variable is looked up and nothing is emitted. -/
theorem yields_lookup_bind {name : String} {v : Variable} {f : Variable → Emit β} {b : β}
    {location : Location} (hv : s.findVariable? name = some v) :
    Yields (lookupVariable name location >>= f) s b t ↔ Yields (f v) s b t := by
  have hlookup : Yields (lookupVariable name location) s v s := by
    refine bind_iff.2 ⟨s, s, get_iff.2 ⟨rfl, rfl⟩, ?_⟩
    rw [hv]
    exact pure_iff.2 ⟨rfl, rfl⟩
  constructor
  · intro h
    obtain ⟨w, u, hw, h⟩ := bind_iff.1 h
    cases hlookup.symm.trans hw
    exact h
  · intro h
    exact bind_iff.2 ⟨v, s, hlookup, h⟩

/-- A variable is combined with something if and only if the combination can be assigned to it. -/
theorem compiles_updateVariable_iff (hs : s.Allots) (hvalue : Alike value value) (name : String)
    (location location₁ location₂ location₃ : Location) :
    (∃ t, Yields (assignVariable (some op) name location value) s type t) ↔
      ∃ t, Yields (assignVariable none name location₁ ((lookupVariable name location₂ >>= fun v =>
        instr v.load >>= fun _ => Pure.pure v.type) >>= fun left => value >>= fun right =>
        applyBinary op left right location₃)) s type t := by
  cases hv : s.findVariable? name with
  | none =>
    have hnone : ∀ (location : Location) (f : Variable → Emit CType) (t : Scope),
        ¬ Yields (lookupVariable name location >>= f) s type t := by
      intro location f t h
      obtain ⟨v, u, hlookup, -⟩ := bind_iff.1 h
      cases hv.symm.trans (yields_lookupVariable hlookup).1
    exact ⟨fun ⟨t, h⟩ => absurd h (hnone _ _ t), fun ⟨t, h⟩ => absurd h (hnone _ _ t)⟩
  | some v =>
    have hupdate : ∀ t, Yields (assignVariable (some op) name location value) s type t ↔
        Yields (instr v.load >>= fun _ => value >>= fun right => applyBinary op v.type right location >>=
          fun type => coerce type v.type location >>= fun _ => instr .dup >>= fun _ =>
          instr v.store >>= fun _ => Pure.pure v.type) s type t := fun _ => yields_lookup_bind hv
    have hassign : ∀ t, Yields (assignVariable none name location₁ ((lookupVariable name location₂ >>= fun v =>
        instr v.load >>= fun _ => Pure.pure v.type) >>= fun left => value >>= fun right =>
        applyBinary op left right location₃)) s type t ↔
        Yields (instr v.load >>= fun _ => value >>= fun right => applyBinary op v.type right location₃ >>=
          fun type => coerce type v.type location₁ >>= fun _ => instr .dup >>= fun _ =>
          instr v.store >>= fun _ => Pure.pure v.type) s type t := by
      intro t
      unfold assignVariable
      rw [yields_lookup_bind hv]
      dsimp only
      simp only [bind_assoc, pure_bind]
      exact yields_lookup_bind hv
    rw [exists_congr hupdate, exists_congr hassign]
    refine Alike.exists_yields_iff ?_ hs
    exact (Alike.instr _ _).bind fun _ => hvalue.bind fun _ => (Alike.applyBinary _ _ _ _ _).bind fun _ =>
      Alike.storeVariable _ _ _ _

/-- A value is combined with the one below it, and what comes out is stored through the address below both. -/
def combineThrough (op : BinaryOp) (left element : CType) (stored : TargetType) (value : Emit CType)
    (location location' : Location) : Emit CType := do
  let type ← applyBinary op left (← value) location
  coerce type element location'
  let temporary ← addTemporary stored
  instr .dup
  instr (.storeLocal temporary)
  instr (.store stored)
  instr (.loadLocal temporary)
  return element

theorem yields_represent_iff {element : CType} {location : Location} {stored : TargetType} :
    Yields (represent element location) s stored t ↔ element.target = .ok stored ∧ t = s := by
  refine ⟨yields_represent, ?_⟩
  rintro ⟨htarget, rfl⟩
  refine bind_iff.2 ⟨_, t, bind_iff.2 ⟨t, t, get_iff.2 ⟨rfl, rfl⟩, pure_iff.2 ⟨rfl, rfl⟩⟩,
    yields_ofExcept.2 ⟨?_, rfl⟩⟩
  unfold CType.represent
  rw [htarget]
  rfl

/-- The address is evaluated once, and copied. -/
theorem yields_updateThrough {location : Location} :
    Yields (assignThrough (some op) address location value) s type t ↔ ∃ element u stored,
      Yields address s element u ∧ element.target = .ok stored ∧
        Yields (combineThrough op element element stored value location location)
          (u.append [] [.dup, .load stored]) type t := by
  unfold assignThrough
  simp only [bind_iff (x := address), bind_iff (x := represent _ _), bind_iff (x := instr _), yields_instr,
    yields_represent_iff]
  constructor
  · rintro ⟨element, u, hu, stored, _, ⟨htarget, rfl⟩, _, _, rfl, _, _, rfl, h⟩
    rw [Scope.append_append] at h
    exact ⟨element, _, stored, hu, htarget, h⟩
  · rintro ⟨element, u, stored, hu, htarget, h⟩
    refine ⟨element, u, hu, stored, u, ⟨htarget, rfl⟩, (), _, rfl, (), _, rfl, ?_⟩
    rw [Scope.append_append]
    exact h

/-- The address is evaluated twice. -/
theorem yields_assignCombined {address' : Emit CType} {location location' location'' : Location} :
    Yields (assignThrough none address location ((address' >>= fun element =>
        loadThrough element location') >>= fun left => value >>= fun right =>
        applyBinary op left right location'')) s type t ↔
      ∃ element u stored left u' stored', Yields address s element u ∧ element.target = .ok stored ∧
        Yields address' u left u' ∧ left.target = .ok stored' ∧
        Yields (combineThrough op left element stored value location'' location)
          (u'.append [] [.load stored']) type t := by
  unfold assignThrough loadThrough
  dsimp only
  simp only [bind_assoc]
  simp only [bind_iff (x := address), bind_iff (x := address'), bind_iff (x := represent _ _),
    bind_iff (x := instr _), yields_instr, yields_represent_iff, pure_bind]
  constructor
  · rintro ⟨element, u, hu, stored, _, ⟨htarget, rfl⟩, left, u', hu', stored', _, ⟨htarget', rfl⟩, _, _, rfl, h⟩
    exact ⟨element, _, stored, left, _, stored', hu, htarget, hu', htarget', h⟩
  · rintro ⟨element, u, stored, left, u', stored', hu, htarget, hu', htarget', h⟩
    exact ⟨element, u, hu, stored, u, ⟨htarget, rfl⟩, left, u', hu', stored', u', ⟨htarget', rfl⟩, (), _, rfl, h⟩

/-- What is at an address is combined with something if and only if the combination can be assigned to it. -/
theorem compiles_updateThrough_iff {address₁ address₂ : Emit CType} (hs : s.Allots)
    (haddress₁ : Alike address address₁) (haddress₂ : Alike address address₂) (hvalue : Alike value value)
    (location location₁ location₂ location₃ : Location) :
    (∃ t, Yields (assignThrough (some op) address location value) s type t) ↔
      ∃ t, Yields (assignThrough none address₁ location₁ ((address₂ >>= fun element =>
        loadThrough element location₂) >>= fun left => value >>= fun right =>
        applyBinary op left right location₃)) s type t := by
  have hrest : ∀ (element : CType) (stored : TargetType),
      Alike (combineThrough op element element stored value location location)
        (combineThrough op element element stored value location₃ location₁) := fun _ _ =>
    hvalue.bind fun _ => (Alike.applyBinary _ _ _ _ _).bind fun _ => Alike.storeThrough _ _ _ _ _
  simp only [yields_updateThrough, yields_assignCombined]
  constructor
  · rintro ⟨t, element, u, stored, hu, htarget, h⟩
    obtain ⟨u₁, hu₁, hsu, hsu₁⟩ := haddress₁.yields (.refl s) hs hs hu
    obtain ⟨u₂, hu₂, -, hu₁₂⟩ := haddress₂.yields hsu₁.agrees hs (hsu₁.allots hs) hu
    have hfirst := hsu.trans (.append u [] [.dup, .load stored])
    have hsecond := (hsu₁.trans hu₁₂).trans (.append u₂ [] [.load stored])
    obtain ⟨t', ht', -⟩ := (hrest element stored).yields ((hfirst.agrees.symm).trans hsecond.agrees)
      (hfirst.allots hs) (hsecond.allots hs) h
    exact ⟨t', element, u₁, stored, element, u₂, stored, hu₁, htarget, hu₂, htarget, ht'⟩
  · rintro ⟨t, element, u₁, stored, left, u₂, stored', hu₁, htarget, hu₂, htarget', h⟩
    obtain ⟨u, hu, hsu₁, hsu⟩ := haddress₁.symm.yields (.refl s) hs hs hu₁
    obtain ⟨u₂', hu₂', -, hu₁₂⟩ := haddress₂.yields hsu₁.agrees hs (hsu₁.allots hs) hu
    cases hu₂.symm.trans hu₂'
    cases htarget.symm.trans htarget'
    have hfirst := hsu.trans (.append u [] [.dup, .load stored])
    have hsecond := (hsu₁.trans hu₁₂).trans (.append u₂ [] [.load stored])
    obtain ⟨t', ht', -⟩ := (hrest element stored).symm.yields ((hsecond.agrees.symm).trans hfirst.agrees)
      (hsecond.allots hs) (hfirst.allots hs) h
    exact ⟨t', element, u, stored, hu, htarget, ht'⟩

end Emit

namespace Expression

variable {span : Span}

theorem compile_arithmetic (op : ArithmeticOp) (left right : Expression) :
    (binary span (.arithmetic op) left right).compile = left.compile >>= fun leftType =>
      right.compile >>= fun rightType => Emit.applyBinary (.arithmetic op) leftType rightType span.start := by
  conv_lhs => unfold compile

theorem compile_identifier (name : String) : (identifier span name).compile =
    Emit.lookupVariable name span.start >>= fun v => Emit.instr v.load >>= fun _ => pure v.type := by
  conv_lhs => unfold compile

theorem compile_subscript (array index : Expression) : (subscript span array index).compile =
    Emit.elementAddress span.start array.compile index.compile >>= fun element =>
      Emit.loadThrough element span.start := by
  conv_lhs => unfold compile

theorem compile_dereference (pointer : Expression) : (unary span .dereference pointer).compile =
    Emit.address span.start pointer.compile >>= fun element => Emit.loadThrough element span.start := by
  conv_lhs => unfold compile
  rfl

end Expression

/-- A combined assignment can be emitted if and only if the assignment that it is short for can. -/
theorem Expression.compiles_update_iff {s : Scope} (hs : s.Allots) (op : ArithmeticOp)
    (target value : Expression) (type : CType) (span span' span'' : Span) :
    (∃ t, Yields (assignment span (some (.arithmetic op)) target value).compile s type t) ↔
      ∃ t, Yields (assignment span' none target (binary span'' (.arithmetic op) target value)).compile
        s type t := by
  have hvalue := Emit.Alike.compileExpression value
  cases target with
  | identifier span name =>
    conv_lhs => unfold compile
    conv_rhs => unfold compile
    rw [compile_arithmetic, compile_identifier]
    exact Emit.compiles_updateVariable_iff hs hvalue _ _ _ _ _
  | subscript span array index =>
    have haddress : ∀ location location', Emit.Alike
        (Emit.elementAddress location array.compile index.compile)
        (Emit.elementAddress location' array.compile index.compile) := fun _ _ =>
      (Emit.Alike.compileExpression array).elementAddress _ _ (Emit.Alike.compileExpression index)
    conv_lhs => unfold compile
    conv_rhs => unfold compile
    rw [compile_arithmetic, compile_subscript]
    exact Emit.compiles_updateThrough_iff hs (haddress _ _) (haddress _ _) hvalue _ _ _ _
  | unary span uop pointer =>
    cases uop with
    | dereference =>
      have haddress : ∀ location location', Emit.Alike (Emit.address location pointer.compile)
          (Emit.address location' pointer.compile) := fun _ _ =>
        (Emit.Alike.compileExpression pointer).address _ _
      conv_lhs => unfold compile
      conv_rhs => unfold compile
      rw [compile_arithmetic, compile_dereference]
      exact Emit.compiles_updateThrough_iff hs (haddress _ _) (haddress _ _) hvalue _ _ _ _
    | _ =>
      conv_lhs => unfold compile
      conv_rhs => unfold compile
      exact (Emit.Alike.refuse _ _ _ _).exists_yields_iff hs
  | _ =>
    conv_lhs => unfold compile
    conv_rhs => unfold compile
    exact (Emit.Alike.refuse _ _ _ _).exists_yields_iff hs

end ManagedC
