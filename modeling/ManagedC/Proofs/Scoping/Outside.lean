import ManagedC.Proofs.Emit.BodyCode
import ManagedC.Proofs.Emit.Closure

/-!
# What emitting a body leaves alone

Whether code can be emitted or not, everything outside the innermost block is afterwards as it was before:
blocks and loops that were opened are closed again, and the method under construction has only grown.
`Scope.Keeps` says this of two states of a scope. It passes from the parts of a computation to the whole
(`Emit.keeps_closed`). Main statement: a body keeps the scope it is emitted into (`Body.keeps_compile`).
-/

namespace ManagedC

namespace Scope

/-- Everything outside the innermost block is kept, and the method has only grown. -/
structure Keeps (s t : Scope) : Prop where
  /-- The open loops are the same. -/
  loops : t.loops = s.loops
  /-- The parameters that can be referred to are the same. -/
  parameters : t.parameters = s.parameters
  /-- The parameters of the method are the same. -/
  entries : t.assembler.method.parameters = s.assembler.method.parameters
  /-- As many blocks are open. -/
  depth : t.blocks.length = s.blocks.length
  /-- The blocks around the innermost one are the same. -/
  outer : t.blocks.tail = s.blocks.tail
  /-- The innermost block has only got more names. -/
  innermost : ∃ added, t.blocks.headD [] = added ++ s.blocks.headD [] ∧
    ∀ name v, (name, v) ∈ added → (s.blocks.headD []).lookup name = none
  /-- Local variables are only appended. -/
  locals : ∃ added, t.assembler.method.locals = s.assembler.method.locals ++ added
  instructions : ∃ added,
    t.assembler.method.body.instructions = s.assembler.method.body.instructions ++ added

namespace Keeps

variable {s t u : Scope}

theorem refl (s : Scope) : Keeps s s :=
  ⟨rfl, rfl, rfl, rfl, rfl, ⟨[], rfl, nofun⟩, ⟨#[], Array.append_empty.symm⟩,
    ⟨#[], Array.append_empty.symm⟩⟩

theorem trans (h : Keeps s u) (h' : Keeps u t) : Keeps s t := by
  obtain ⟨names, hnames, hnew⟩ := h.innermost
  obtain ⟨names', hnames', hnew'⟩ := h'.innermost
  obtain ⟨locals, hlocals⟩ := h.locals
  obtain ⟨locals', hlocals'⟩ := h'.locals
  obtain ⟨code, hcode⟩ := h.instructions
  obtain ⟨code', hcode'⟩ := h'.instructions
  refine ⟨h'.loops.trans h.loops, h'.parameters.trans h.parameters, h'.entries.trans h.entries,
    h'.depth.trans h.depth, h'.outer.trans h.outer, ⟨names' ++ names, ?_, fun name v hv => ?_⟩,
    ⟨locals ++ locals', ?_⟩, ⟨code ++ code', ?_⟩⟩
  · rw [hnames', hnames, List.append_assoc]
  · rcases List.mem_append.1 hv with hv | hv
    · have hnone := hnew' name v hv
      rw [hnames, List.lookup_append, Option.or_eq_none_iff] at hnone
      exact hnone.2
    · exact hnew name v hv
  · rw [hlocals', hlocals, Array.append_assoc]
  · rw [hcode', hcode, Array.append_assoc]

/-- A block that was opened is closed again. -/
theorem closeBlock (h : s.openBlock.Keeps t) : s.Keeps t.closeBlock := by
  have houter : t.closeBlock.blocks = s.blocks := h.outer
  exact ⟨h.loops, h.parameters, h.entries, congrArg List.length houter, congrArg List.tail houter,
    ⟨[], congrArg (·.headD []) houter, nofun⟩, h.locals, h.instructions⟩

/-- A loop that was opened is closed again. -/
theorem closeLoop {labels : LoopLabels} (h : (s.openLoop labels).Keeps t) : s.Keeps t.closeLoop :=
  ⟨congrArg List.tail h.loops, h.parameters, h.entries, h.depth, h.outer, h.innermost, h.locals,
    h.instructions⟩

theorem blocks_ne_nil (h : s.Keeps t) (hs : s.blocks ≠ []) : t.blocks ≠ [] := by
  intro hnil
  have hdepth := h.depth
  rw [hnil, List.length_nil] at hdepth
  exact hs (List.length_eq_zero_iff.1 hdepth.symm)

/-- A local variable is declared whose name is new in the innermost block. -/
theorem declareVariable (hs : s.blocks ≠ []) {name : String} (type : CType) (target : TargetType)
    (hnew : (s.blocks.headD []).lookup name = none) :
    s.Keeps (s.declareVariable name type target) := by
  refine ⟨rfl, rfl, rfl, ?_, rfl, ⟨[(name, ⟨.local s.nextSlot, type⟩)], rfl, fun name' v hv => ?_⟩,
    ⟨#[⟨some name, target, false⟩], Array.push_eq_append⟩, ⟨#[], Array.append_empty.symm⟩⟩
  · obtain ⟨names, outer, hblocks⟩ := List.exists_cons_of_ne_nil hs
    simp [Scope.declareVariable, hblocks]
  · cases List.mem_singleton.1 hv
    exact hnew

end Keeps

end Scope

/-! ## Computations that keep the scope -/

/-- The computation keeps every scope with an open block, whether it fails or not. -/
def Emit.Keeps {α : Type} (x : Emit α) : Prop := ∀ s : Scope, s.blocks ≠ [] → s.Keeps (x s).2

namespace Emit.Keeps

variable {α β : Type}

theorem pure (a : α) : Keeps (Pure.pure a) := fun s _ => .refl s

theorem throw (e : CompileError) : Keeps (MonadExcept.throw e : Emit α) := fun s _ => .refl s

theorem get : Keeps (MonadState.get : Emit Scope) := fun s _ => .refl s

theorem ofExcept (r : Except CompileError α) : Keeps (Emit.ofExcept r) := fun s _ => .refl s

theorem bind {x : Emit α} {f : α → Emit β} (hx : Keeps x) (hf : ∀ a, Keeps (f a)) :
    Keeps (x >>= f) := by
  intro s hs
  have hkept := hx s hs
  rw [bind_apply]
  rcases hresult : x s with ⟨e | a, u⟩
  · rwa [hresult] at hkept
  · have hu : s.Keeps u := by rwa [hresult] at hkept
    exact hu.trans (hf a u (hu.blocks_ne_nil hs))

/-- Something is done first under a condition. -/
theorem optionally {c : Prop} [Decidable c] {x : Emit α} {rest : Emit β} (hx : Keeps x)
    (hrest : Keeps rest) : Keeps (if c then x >>= fun _ => rest else rest) := by
  split
  · exact hx.bind fun _ => hrest
  · exact hrest

theorem withBlock {x : Emit α} (hx : Keeps x) : Keeps (Emit.withBlock x) := fun s _ =>
  (hx s.openBlock (List.cons_ne_nil _ _)).closeBlock

theorem withLoop {x : Emit α} (hx : Keeps x) (exit next : Label) : Keeps (Emit.withLoop exit next x) :=
  fun s hs => (hx (s.openLoop ⟨exit, next⟩) hs).closeLoop

theorem refuse (refusal : Refusal) (location : Location) : Keeps (Emit.refuse refusal location : Emit α) :=
  .throw _

theorem represent (type : CType) (location : Location) : Keeps (Emit.represent type location) :=
  .bind (.bind .get fun _ => .pure _) fun _ => .ofExcept _

/-- A step of assembling that only appends keeps every scope. -/
theorem assemble {step : Assembly α} (h : ∀ a : Assembler,
    (step a).2.method.parameters = a.method.parameters ∧
    (∃ added, (step a).2.method.locals = a.method.locals ++ added) ∧
    ∃ added, (step a).2.method.body.instructions = a.method.body.instructions ++ added) :
    Keeps (Emit.assemble step) := fun s _ =>
  have h := h s.assembler
  ⟨rfl, rfl, h.1, rfl, rfl, ⟨[], rfl, nofun⟩, h.2.1, h.2.2⟩

theorem instr (i : Instruction) : Keeps (Emit.instr i) :=
  .assemble fun _ => ⟨rfl, ⟨#[], Array.append_empty.symm⟩, ⟨#[i], Array.push_eq_append⟩⟩

theorem newLabel : Keeps Emit.newLabel :=
  .assemble fun _ => ⟨rfl, ⟨#[], Array.append_empty.symm⟩, ⟨#[], Array.append_empty.symm⟩⟩

theorem addTemporary (type : TargetType) : Keeps (Emit.addTemporary type) :=
  .assemble fun _ =>
    ⟨rfl, ⟨#[⟨none, type, false⟩], Array.push_eq_append⟩, ⟨#[], Array.append_empty.symm⟩⟩

theorem mark (label : Label) : Keeps (Emit.mark label) := by
  refine .assemble fun a => ?_
  have hmark : (Assembly.mark label a).2 = a ∨ (Assembly.mark label a).2 = a.bind label := by
    unfold Assembly.mark
    rw [get_bind_apply]
    split
    · exact .inl rfl
    · beta_reduce
      rw [set_bind_apply]
      split <;> exact .inr rfl
  rcases hmark with h | h <;> rw [h]
  · exact ⟨rfl, ⟨#[], Array.append_empty.symm⟩, ⟨#[], Array.append_empty.symm⟩⟩
  · exact ⟨rfl, ⟨#[], Array.append_empty.symm⟩, ⟨#[], Array.append_empty.symm⟩⟩

/-- A declaration ends in the scope it was made in, or in one with the variable in the innermost block,
where its name was new. -/
theorem state_declareLocal (name : String) (type : CType) (location : Location) {s : Scope}
    (hs : s.blocks ≠ []) : (Emit.declareLocal name type location s).2 = s ∨
      (s.blocks.headD []).lookup name = none ∧ ∃ target,
        (Emit.declareLocal name type location s).2 = s.declareVariable name type target := by
  have hopen : (if s.blocks.isEmpty then s.openBlock else s) = s := by
    rw [if_neg (by simpa using hs)]
  have hrepresent : ∀ f : TargetType → Emit Variable,
      ((Emit.represent type location >>= f) s).2 = s ∨
        ∃ target, (Emit.represent type location >>= f) s = f target s := by
    intro f
    have hresult : Emit.represent type location s = (type.represent s.signature.name location, s) := rfl
    rw [bind_apply, hresult]
    cases type.represent s.signature.name location with
    | error e => exact .inl rfl
    | ok target => exact .inr ⟨target, rfl⟩
  unfold Emit.declareLocal
  split
  · exact .inl rfl
  · beta_reduce
    rcases hrepresent _ with h | ⟨target, h⟩
    · exact .inl h
    · rw [h, modify_bind_apply, get_bind_apply, hopen]
      cases hnew : (s.blocks.headD []).lookup name with
      | some v => exact .inl rfl
      | none =>
        refine .inr ⟨rfl, target, ?_⟩
        obtain ⟨assembler, functions, signature, parameters, blocks, loops⟩ := s
        obtain ⟨names, outer, rfl⟩ := List.exists_cons_of_ne_nil hs
        rfl

theorem declareLocal (name : String) (type : CType) (location : Location) :
    Keeps (Emit.declareLocal name type location) := by
  intro s hs
  rcases state_declareLocal name type location hs with h | ⟨hnew, target, h⟩
  · rw [h]
    exact .refl s
  · rw [h]
    exact .declareVariable hs type target hnew

/-! ## Jumps -/

theorem shortCircuit (op : LogicalOp) {left right : Emit Unit} (hleft : Keeps left)
    (hright : Keeps right) : Keeps (Emit.shortCircuit op left right) := by
  refine .bind .newLabel fun _ => .bind .newLabel fun _ => ?_
  exact .bind hleft fun _ => .bind (.instr _) fun _ => .bind hright fun _ => .bind (.instr _) fun _ =>
    .bind (.instr _) fun _ => .bind (.instr _) fun _ => .bind (.mark _) fun _ => .bind (.instr _) fun _ =>
      .bind (.mark _) fun _ => .pure _

theorem jumpInLoop (label : LoopLabels → Label) (refusal : Refusal) (location : Location) :
    Keeps (Emit.jumpInLoop label refusal location) := by
  refine .bind .get fun s => ?_
  split
  · exact .refuse _ _
  · exact .instr _

section

variable {condition start update body other : Emit Unit} (hcondition : Keeps condition)
  (hbody : Keeps body)

include hcondition hbody

theorem conditional : Keeps (Emit.conditional condition body) :=
  .bind .newLabel fun _ => .bind hcondition fun _ => .bind (.instr _) fun _ => .bind hbody fun _ => .mark _

theorem choice (hother : Keeps other) : Keeps (Emit.choice condition body other) := by
  refine .bind .newLabel fun _ => .bind hcondition fun _ => .bind (.instr _) fun _ => .bind hbody fun _ =>
    .bind .newLabel fun _ => .bind .get fun s => ?_
  have hend : ∀ otherwise stop, Keeps (Emit.mark otherwise >>= fun _ => other >>= fun _ => Emit.mark stop) :=
    fun _ _ => .bind (.mark _) fun _ => .bind hother fun _ => .mark _
  exact .optionally (.instr _) (hend _ _)

theorem whileLoop : Keeps (Emit.whileLoop condition body) :=
  .bind .newLabel fun _ => .bind .newLabel fun _ => .bind (.mark _) fun _ => .bind hcondition fun _ =>
    .bind (.instr _) fun _ => .bind (.withLoop hbody _ _) fun _ => .bind (.instr _) fun _ => .mark _

theorem doWhileLoop : Keeps (Emit.doWhileLoop body condition) :=
  .bind .newLabel fun _ => .bind .newLabel fun _ => .bind .newLabel fun _ => .bind (.mark _) fun _ =>
    .bind (.withLoop hbody _ _) fun _ => .bind (.mark _) fun _ => .bind hcondition fun _ =>
      .bind (.instr _) fun _ => .mark _

end

theorem forLoop {start update body : Emit Unit} {condition : Option (Emit Unit)} (hstart : Keeps start)
    (hcondition : ∀ x, condition = some x → Keeps x) (hupdate : Keeps update) (hbody : Keeps body) :
    Keeps (Emit.forLoop start condition update body) := by
  refine .bind hstart fun _ => .bind .newLabel fun again => .bind .newLabel fun next =>
    .bind .newLabel fun stop => .bind (.mark _) fun _ => ?_
  have hrounds : Keeps (Emit.withLoop stop next body >>= fun _ => Emit.mark next >>= fun _ =>
      update >>= fun _ => Emit.instr (.branch again) >>= fun _ => Emit.mark stop) :=
    .bind (.withLoop hbody _ _) fun _ => .bind (.mark _) fun _ => .bind hupdate fun _ =>
      .bind (.instr _) fun _ => .mark _
  cases condition with
  | none => exact hrounds
  | some x => exact .bind (hcondition x rfl) fun _ => .bind (.instr _) fun _ => hrounds

end Emit.Keeps

/-- Keeping the scope passes from the parts of a computation to the whole, however it fails. -/
theorem Emit.keeps_closed : Emit.Closed (fun _ => True) fun _ => Emit.Keeps where
  refused _ _ := trivial
  misused _ _ := trivial
  pure := .pure
  throw _ := .throw _
  bind := .bind
  get := .get
  represent := .represent
  instr _ := .instr _
  addTemporary := .addTemporary
  declareLocal := .declareLocal
  withBlock := .withBlock
  shortCircuit := .shortCircuit
  conditional := .conditional
  choice := .choice
  whileLoop := .whileLoop
  doWhileLoop hbody hcondition := .doWhileLoop hcondition hbody
  forLoop := .forLoop
  exitLoop := .jumpInLoop _ _
  nextRound := .jumpInLoop _ _

/-- Whether the code of a body can be emitted or not, everything outside the innermost block is kept. -/
theorem Body.keeps_compile (b : Body) : Emit.Keeps b.compile :=
  Emit.keeps_closed.compileBody b fun _ _ => trivial

end ManagedC
