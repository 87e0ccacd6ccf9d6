import ManagedC.Proofs.Assembly.Refusals
import ManagedC.Proofs.Emit.Closure

/-!
# Labels of emitted code

Every label that the code of a function takes is bound before the code ends, once, and the code jumps to no
others. `Scope.Tracks` says of a scope which labels are still to be bound. Code that binds the labels it
takes keeps track of them (`Emit.Orderly`), whatever labels are to be bound around it, and fails only
because of what is compiled. This passes from the parts of a computation to the whole. Main statements:
`Emit.orderly_closed`, and that a method is complete where no label is left (`Scope.Tracks.finish`).
-/

namespace ManagedC

namespace CompileError

/-- The failure is about what is compiled, and not a mistake of the compiler. -/
def IsAboutSource (e : CompileError) : Prop := ∀ fault, e ≠ .internal fault

theorem isAboutSource_declaration (error : DeclarationError) : (declaration error).IsAboutSource :=
  fun _ => nofun

theorem isAboutSource_refused (refusal : Refusal) (location : Location) :
    (refused refusal location).IsAboutSource := fun _ => nofun

theorem isAboutSource_misused (misuse : Misuse) (location : Location) :
    (misused misuse location).IsAboutSource := fun _ => nofun

end CompileError

/-- Of the labels that are handed out, which are at least so many, all but the pending ones are bound, and
only they are jumped to. -/
structure Scope.Tracks (s : Scope) (least : Nat) (pending : List Label) : Prop where
  /-- So many labels are handed out. -/
  least : least ≤ s.nextLabel
  /-- A label that is handed out is bound or pending. -/
  handed : ∀ l, l < s.nextLabel ↔ s.assembler.method.body.labels.isBound l ∨ l ∈ pending
  free : ∀ l ∈ pending, ¬ s.assembler.method.body.labels.isBound l
  /-- No label is pending twice. -/
  distinct : pending.Nodup
  /-- What is jumped to is handed out. -/
  targets : ∀ i ∈ s.assembler.method.body.instructions, ∀ l, i.target? = some l → l < s.nextLabel
  /-- So is what the ends of loops jump to. -/
  loops : ∀ labels ∈ s.loops, labels.exit < s.nextLabel ∧ labels.next < s.nextLabel
  regions : s.assembler.regions = []

namespace Scope.Tracks

variable {s t : Scope} {least least' : Nat} {pending pending' : List Label} {label : Label}

theorem weaken (h : s.Tracks least pending) (hle : least' ≤ least) : s.Tracks least' pending :=
  { h with least := Nat.le_trans hle h.least }

theorem perm (h : s.Tracks least pending) (hperm : pending.Perm pending') : s.Tracks least pending' where
  least := h.least
  handed l := by rw [h.handed l, hperm.mem_iff]
  free l hl := h.free l (hperm.mem_iff.2 hl)
  distinct := hperm.nodup_iff.1 h.distinct
  targets := h.targets
  loops := h.loops
  regions := h.regions

/-- What leaves labels and loops alone and adds no other jumps changes nothing. -/
theorem same (h : s.Tracks least pending) (hnext : t.nextLabel = s.nextLabel)
    (hlabels : t.assembler.method.body.labels = s.assembler.method.body.labels)
    (hcode : ∀ i ∈ t.assembler.method.body.instructions,
      i ∈ s.assembler.method.body.instructions ∨ ∀ l, i.target? = some l → l < least)
    (hloops : ∀ labels ∈ t.loops, labels ∈ s.loops ∨ labels.exit < least ∧ labels.next < least)
    (hregions : t.assembler.regions = s.assembler.regions) : t.Tracks least pending where
  least := hnext ▸ h.least
  handed l := by rw [hnext, hlabels, h.handed l]
  free l hl := hlabels ▸ h.free l hl
  distinct := h.distinct
  targets i hi l hl := by
    rw [hnext]
    rcases hcode i hi with hold | hnew
    · exact h.targets i hold l hl
    · exact Nat.lt_of_lt_of_le (hnew l hl) h.least
  loops labels hmem := by
    rw [hnext]
    rcases hloops labels hmem with hold | ⟨hexit, hround⟩
    · exact h.loops labels hold
    · exact ⟨Nat.lt_of_lt_of_le hexit h.least, Nat.lt_of_lt_of_le hround h.least⟩
  regions := hregions.trans h.regions

/-- A label is handed out that is to be bound. -/
theorem reserve (h : s.Tracks least pending) :
    (s.reserve 1).Tracks (s.nextLabel + 1) (s.nextLabel :: pending) where
  least := Nat.le_refl _
  handed l := by
    show l < s.nextLabel + 1 ↔ s.assembler.method.body.labels.isBound l ∨ l ∈ s.nextLabel :: pending
    rw [Nat.lt_succ_iff_lt_or_eq, h.handed l, List.mem_cons, or_assoc]
    exact or_congr Iff.rfl or_comm
  free l hl := by
    rcases List.mem_cons.1 hl with rfl | hl
    · exact fun hbound => Nat.lt_irrefl _ ((h.handed _).2 (.inl hbound))
    · exact h.free l hl
  distinct := List.nodup_cons.2 ⟨fun hmem => Nat.lt_irrefl _ ((h.handed _).2 (.inr hmem)), h.distinct⟩
  targets i hi l hl := Nat.lt_succ_of_lt (h.targets i hi l hl)
  loops labels hmem := (h.loops labels hmem).imp Nat.lt_succ_of_lt Nat.lt_succ_of_lt
  regions := h.regions

/-- A pending label is bound. -/
theorem bind (h : s.Tracks least (label :: pending)) :
    ({ s with assembler := s.assembler.bind label } : Scope).Tracks least pending where
  least := h.least
  handed l := by
    show l < s.nextLabel ↔
      (s.assembler.method.body.labels.insert label s.assembler.offset).isBound l ∨ l ∈ pending
    rw [LabelTable.isBound_insert, h.handed l, List.mem_cons, or_left_comm, or_assoc]
  free l hl hbound := by
    have hne : l ≠ label := fun heq => (List.nodup_cons.1 h.distinct).1 (heq ▸ hl)
    exact h.free l (List.mem_cons_of_mem _ hl) ((LabelTable.isBound_insert.1 hbound).resolve_left hne)
  distinct := (List.nodup_cons.1 h.distinct).2
  targets := h.targets
  loops := h.loops
  regions := h.regions

/-- A method all of whose labels are bound is complete. -/
theorem finish (h : s.Tracks least []) : s.assembler.finish = .ok s.assembler.method := by
  have hbound : s.assembler.unboundTarget? = none := by
    refine List.min?_eq_none_iff.2 (List.filter_eq_nil_iff.2 fun label hlabel => ?_)
    obtain ⟨i, hi, htarget⟩ := List.mem_filterMap.1 hlabel
    have hhanded := h.targets i (Array.mem_toList_iff.1 hi) label htarget
    rcases (h.handed label).1 hhanded with hbound | hpending
    · simp [hbound]
    · cases hpending
  unfold Assembler.finish
  rw [h.regions, hbound]
  rfl

end Scope.Tracks

/-! ## Computations that keep track of labels -/

namespace Emit

variable {α β : Type} {P : Scope → Prop} {least : Nat} {pending pending' : List Label}

/-- Started in a scope of one kind, the computation ends in one of another kind, unless it fails because of
what is compiled. -/
def Meets (P : Scope → Prop) (x : Emit α) (Q : α → Scope → Prop) : Prop :=
  ∀ s, P s → match x s with
    | (.ok a, t) => Q a t
    | (.error e, _) => e.IsAboutSource

/-- The computation binds each label that it takes, once, and jumps to no others than those it knows. -/
def Orderly (x : Emit α) : Prop :=
  ∀ least pending, Meets (·.Tracks least pending) x fun _ t => t.Tracks least pending

theorem Meets.bind {x : Emit α} {f : α → Emit β} {Q : α → Scope → Prop} {R : β → Scope → Prop}
    (hx : Meets P x Q) (hf : ∀ a, Meets (Q a) (f a) R) : Meets P (x >>= f) R := by
  intro s hs
  have hxs := hx s hs
  rw [bind_apply]
  rcases hresult : x s with ⟨e | a, t⟩
  · rwa [hresult] at hxs
  · rw [hresult] at hxs
    exact hf a t hxs

theorem Meets.mono {x : Emit α} {P' : Scope → Prop} {Q Q' : α → Scope → Prop} (h : Meets P x Q)
    (hP : ∀ s, P' s → P s) (hQ : ∀ a s, Q a s → Q' a s) : Meets P' x Q' := by
  intro s hs
  have hxs := h s (hP s hs)
  rcases hresult : x s with ⟨e | a, t⟩
  · rwa [hresult] at hxs
  · rw [hresult] at hxs
    exact hQ a t hxs

section

variable {rest : Emit β} {Q : β → Scope → Prop}

/-- A label is taken, which is to be bound. -/
theorem Meets.newLabel {f : Label → Emit β}
    (h : ∀ l, least ≤ l → Meets (·.Tracks (l + 1) (l :: pending)) (f l) Q) :
    Meets (·.Tracks least pending) (Emit.newLabel >>= f) Q := by
  intro s hs
  exact h s.nextLabel hs.least (s.reserve 1) hs.reserve

/-- The labels that are to be bound may be told in any order. -/
theorem Meets.perm (hperm : pending.Perm pending') (h : Meets (·.Tracks least pending') rest Q) :
    Meets (·.Tracks least pending) rest Q :=
  h.mono (fun _ hs => hs.perm hperm) fun _ _ => id

theorem meets_mark (label : Label) :
    Meets (·.Tracks least (label :: pending)) (Emit.mark label) fun _ t => t.Tracks least pending := by
  intro s hs
  have hhanded := (hs.handed label).2 (.inr List.mem_cons_self)
  have hmark : Emit.mark label s = (.ok (), { s with assembler := s.assembler.bind label }) := by
    unfold Emit.mark Emit.assemble
    rw [Assembly.mark_apply, if_neg (Nat.not_le.2 hhanded), if_neg (hs.free label List.mem_cons_self)]
    rfl
  rw [hmark]
  exact hs.bind

theorem meets_instr {i : Instruction} (hi : ∀ l, i.target? = some l → l < least) :
    Meets (·.Tracks least pending) (Emit.instr i) fun _ t => t.Tracks least pending := by
  intro s hs
  refine hs.same rfl rfl (fun j hj => ?_) (fun _ hmem => .inl hmem) rfl
  rcases Array.mem_push.1 hj with hold | rfl
  · exact .inl hold
  · exact .inr hi

/-- A label is bound. -/
theorem Meets.mark {label : Label} (h : Meets (·.Tracks least pending) rest Q) :
    Meets (·.Tracks least (label :: pending)) (Emit.mark label >>= fun _ => rest) Q :=
  (meets_mark label).bind fun _ => h

/-- An instruction jumps to a label that is known. -/
theorem Meets.jump {i : Instruction} {label : Label} (hi : i.target? = some label)
    (hlabel : label < least) (h : Meets (·.Tracks least pending) rest Q) :
    Meets (·.Tracks least pending) (Emit.instr i >>= fun _ => rest) Q := by
  refine (meets_instr fun l hl => ?_).bind fun _ => h
  cases hi.symm.trans hl
  exact hlabel

/-- Code that binds its own labels. -/
theorem Orderly.before {x : Emit α} (hx : Orderly x) (h : Meets (·.Tracks least pending) rest Q) :
    Meets (·.Tracks least pending) (x >>= fun _ => rest) Q :=
  (hx least pending).bind fun _ => h

end

/-- What was known before holds at the end. -/
theorem Meets.weaken {x : Emit α} {least' : Nat} (hle : least ≤ least')
    (h : Meets P x fun _ t => t.Tracks least' pending) : Meets P x fun _ t => t.Tracks least pending :=
  h.mono (fun _ => id) fun _ _ ht => ht.weaken hle

namespace Orderly

theorem pure (a : α) : Orderly (Pure.pure a) := fun _ _ _ hs => hs

theorem throw {e : CompileError} (h : e.IsAboutSource) : Orderly (MonadExcept.throw e : Emit α) :=
  fun _ _ _ _ => h

theorem get : Orderly (MonadState.get : Emit Scope) := fun _ _ _ hs => hs

theorem bind {x : Emit α} {f : α → Emit β} (hx : Orderly x) (hf : ∀ a, Orderly (f a)) :
    Orderly (x >>= f) := fun least pending => (hx least pending).bind fun a => hf a least pending

theorem instr {i : Instruction} (h : i.target? = none) : Orderly (Emit.instr i) := fun _ _ =>
  meets_instr fun _ hl => nomatch h.symm.trans hl

theorem ofExcept {r : Except CompileError α} (h : ∀ e, r = .error e → e.IsAboutSource) :
    Orderly (Emit.ofExcept r) := by
  intro least pending s hs
  show match (r, s) with
    | (.ok _, t) => t.Tracks least pending
    | (.error e, _) => e.IsAboutSource
  cases r with
  | ok a => exact hs
  | error e => exact h e rfl

/-- A step of assembling that neither fails nor concerns labels, instructions or regions. -/
theorem assemble {step : Assembly α} (h : ∀ a : Assembler, ∃ answer b, step a = (.ok answer, b) ∧
    b.nextLabel = a.nextLabel ∧ b.method.body = a.method.body ∧ b.regions = a.regions) :
    Orderly (Emit.assemble step) := by
  intro least pending s hs
  obtain ⟨answer, b, hstep, hnext, hbody, hregions⟩ := h s.assembler
  have hresult : Emit.assemble step s = (.ok answer, { s with assembler := b }) := by
    unfold Emit.assemble
    rw [hstep]
    rfl
  rw [hresult]
  exact hs.same hnext (congrArg MethodBody.labels hbody) (fun i hi => .inl (hbody ▸ hi))
    (fun _ hmem => .inl hmem) hregions

theorem addTemporary (type : TargetType) : Orderly (Emit.addTemporary type) :=
  .assemble fun _ => ⟨_, _, rfl, rfl, rfl, rfl⟩

/-- A change of the scope that concerns names only. -/
theorem modify {f : Scope → Scope} (hassembler : ∀ s, (f s).assembler = s.assembler)
    (hloops : ∀ s, (f s).loops = s.loops) : Orderly (MonadState.modifyGet fun s => ((), f s) : Emit Unit) := by
  intro least pending s hs
  refine hs.same (congrArg Assembler.nextLabel (hassembler s)) ?_ (fun i hi => .inl ?_)
    (fun labels hmem => .inl (hloops s ▸ hmem)) (congrArg Assembler.regions (hassembler s))
  · exact congrArg (fun a : Assembler => a.method.body.labels) (hassembler s)
  · exact hassembler s ▸ hi

theorem represent (type : CType) (location : Location) : Orderly (Emit.represent type location) := by
  refine .bind (.bind .get fun _ => .pure _) fun name => .ofExcept fun e he => ?_
  unfold CType.represent at he
  cases htarget : type.target with
  | ok target =>
    rw [htarget] at he
    cases he
  | error part =>
    rw [htarget] at he
    cases he
    exact nofun

/-- Something is done first under a condition. -/
theorem optionally {c : Prop} [Decidable c] {x : Emit α} {rest : Emit β} (hx : Orderly x)
    (hrest : Orderly rest) : Orderly (if c then x >>= fun _ => rest else rest) := by
  split
  · exact hx.bind fun _ => hrest
  · exact hrest

theorem declareLocal (name : String) (type : CType) (location : Location) :
    Orderly (Emit.declareLocal name type location) := by
  have hentry : ∀ target, Orderly (Emit.assemble (Assembly.addLocal (some name) target false)) :=
    fun target => .assemble fun _ => ⟨_, _, rfl, rfl, rfl, rfl⟩
  refine .optionally (.throw (CompileError.isAboutSource_misused _ _)) (.bind (.represent _ _) fun target => ?_)
  refine .bind (.modify (fun s => ?_) fun s => ?_) fun _ => .bind .get fun s => ?_
  · split <;> rfl
  · split <;> rfl
  · refine .optionally (.throw (CompileError.isAboutSource_misused _ _)) (.bind (hentry target) fun index => ?_)
    refine .bind (.modify (fun s => ?_) fun s => ?_) fun _ => .pure _
    · unfold Scope.declareName
      split <;> rfl
    · unfold Scope.declareName
      split <;> rfl

theorem withBlock {x : Emit α} (hx : Orderly x) : Orderly (Emit.withBlock x) := by
  intro least pending s hs
  have hxs := hx least pending s.openBlock
    (hs.same rfl rfl (fun _ hi => .inl hi) (fun _ hmem => .inl hmem) rfl)
  unfold Emit.withBlock Emit.bracket
  rcases hresult : x s.openBlock with ⟨e | a, t⟩
  · rwa [hresult] at hxs
  · rw [hresult] at hxs
    exact hxs.same rfl rfl (fun _ hi => .inl hi) (fun _ hmem => .inl hmem) rfl

end Orderly

/-- A loop whose labels are known. -/
theorem Orderly.withLoop {x : Emit α} (hx : Orderly x) {exit next : Label} (hexit : exit < least)
    (hnext : next < least) :
    Meets (·.Tracks least pending) (Emit.withLoop exit next x) fun _ t => t.Tracks least pending := by
  intro s hs
  have hloop : (s.openLoop ⟨exit, next⟩).Tracks least pending := by
    refine hs.same rfl rfl (fun _ hi => .inl hi) (fun labels hmem => ?_) rfl
    rcases List.mem_cons.1 hmem with rfl | hmem
    · exact .inr ⟨hexit, hnext⟩
    · exact .inl hmem
  have hxs := hx least pending _ hloop
  unfold Emit.withLoop Emit.bracket
  rcases hresult : x (s.openLoop ⟨exit, next⟩) with ⟨e | a, t⟩
  · rwa [hresult] at hxs
  · rw [hresult] at hxs
    exact hxs.same rfl rfl (fun _ hi => .inl hi) (fun _ hmem => .inl (List.mem_of_mem_tail hmem)) rfl

namespace Orderly

theorem shortCircuit (op : LogicalOp) {left right : Emit Unit} (hleft : Orderly left)
    (hright : Orderly right) : Orderly (Emit.shortCircuit op left right) := by
  intro least pending
  refine Meets.newLabel fun decided hdecided => Meets.newLabel fun stop hstop => ?_
  have hknown : decided < stop + 1 := Nat.lt_succ_of_lt hstop
  refine hleft.before (Meets.jump rfl hknown (hright.before (Meets.jump rfl hknown ?_)))
  refine (Orderly.instr rfl).before (Meets.jump rfl (Nat.lt_succ_self stop) ?_)
  refine Meets.perm (.swap _ _ _) (Meets.mark ((Orderly.instr rfl).before (Meets.mark ?_)))
  have hle : least ≤ stop + 1 := Nat.le_trans hdecided (Nat.le_of_lt hknown)
  exact Meets.weaken hle (Orderly.pure _ _ _)

theorem jumpInLoop {label : LoopLabels → Label} (refusal : Refusal) (location : Location)
    (h : ∀ (labels : LoopLabels) (n : Nat), labels.exit < n ∧ labels.next < n → label labels < n) :
    Orderly (Emit.jumpInLoop label refusal location) := by
  intro least pending s hs
  unfold Emit.jumpInLoop
  rw [get_bind_apply]
  cases hloops : s.loops with
  | nil => exact fun _ heq => nomatch heq
  | cons labels outer =>
    have hknown := h labels s.nextLabel (hs.loops labels (hloops ▸ List.mem_cons_self))
    have hjump : ∀ l, (Instruction.branch (label labels)).target? = some l → l < s.nextLabel := by
      rintro _ ⟨⟩
      exact hknown
    exact Meets.weaken hs.least (meets_instr hjump) s { hs with least := Nat.le_refl _ }

section

variable {condition update body other : Emit Unit} (hcondition : Orderly condition)
  (hbody : Orderly body)

include hcondition hbody

theorem conditional : Orderly (Emit.conditional condition body) := by
  intro least pending
  refine Meets.newLabel fun otherwise hotherwise => ?_
  refine hcondition.before (Meets.jump rfl (Nat.lt_succ_self otherwise) (hbody.before ?_))
  exact Meets.weaken (Nat.le_succ_of_le hotherwise) (meets_mark otherwise)

theorem choice (hother : Orderly other) : Orderly (Emit.choice condition body other) := by
  intro least pending
  refine Meets.newLabel fun otherwise hotherwise => ?_
  refine hcondition.before (Meets.jump rfl (Nat.lt_succ_self otherwise) (hbody.before ?_))
  refine Meets.newLabel fun stop hstop => (Orderly.get _ _).bind fun s => ?_
  have hle : least ≤ stop + 1 := Nat.le_trans hotherwise (Nat.le_of_lt (Nat.lt_succ_of_lt hstop))
  have hend : Meets (·.Tracks (stop + 1) (stop :: otherwise :: pending))
      (Emit.mark otherwise >>= fun _ => other >>= fun _ => Emit.mark stop)
      fun _ t => t.Tracks least pending :=
    Meets.perm (.swap _ _ _) (Meets.mark (hother.before (Meets.weaken hle (meets_mark stop))))
  split
  · exact Meets.jump rfl (Nat.lt_succ_self stop) hend
  · exact hend

theorem whileLoop : Orderly (Emit.whileLoop condition body) := by
  intro least pending
  refine Meets.newLabel fun again hagain => Meets.newLabel fun stop hstop => ?_
  have hknown : again < stop + 1 := Nat.lt_succ_of_lt hstop
  have hbehind := Nat.lt_succ_self stop
  refine Meets.perm (.swap _ _ _) (Meets.mark (hcondition.before (Meets.jump rfl hbehind ?_)))
  refine (hbody.withLoop hbehind hknown).bind fun _ => Meets.jump rfl hknown ?_
  exact Meets.weaken (Nat.le_trans hagain (Nat.le_of_lt hknown)) (meets_mark stop)

theorem doWhileLoop : Orderly (Emit.doWhileLoop body condition) := by
  intro least pending
  refine Meets.newLabel fun again hagain => Meets.newLabel fun test htest => ?_
  refine Meets.newLabel fun stop hstop => ?_
  have htests : test < stop + 1 := Nat.lt_succ_of_lt hstop
  have hknown : again < stop + 1 := Nat.lt_trans htest htests
  have hbehind := Nat.lt_succ_self stop
  refine Meets.perm ((List.reverse_perm [again, test, stop]).append_right pending) (Meets.mark ?_)
  refine (hbody.withLoop hbehind htests).bind fun _ => Meets.mark ?_
  refine hcondition.before (Meets.jump rfl hknown ?_)
  exact Meets.weaken (Nat.le_trans hagain (Nat.le_of_lt hknown)) (meets_mark stop)

end

theorem forLoop {start update body : Emit Unit} {condition : Option (Emit Unit)} (hstart : Orderly start)
    (hcondition : ∀ x, condition = some x → Orderly x) (hupdate : Orderly update)
    (hbody : Orderly body) : Orderly (Emit.forLoop start condition update body) := by
  intro least pending
  refine hstart.before (Meets.newLabel fun again hagain => Meets.newLabel fun next hnext => ?_)
  refine Meets.newLabel fun stop hstop => ?_
  have hround : next < stop + 1 := Nat.lt_succ_of_lt hstop
  have hknown : again < stop + 1 := Nat.lt_trans hnext hround
  have hbehind := Nat.lt_succ_self stop
  have hrounds : Meets (·.Tracks (stop + 1) (next :: stop :: pending))
      (Emit.withLoop stop next body >>= fun _ => Emit.mark next >>= fun _ => update >>= fun _ =>
        Emit.instr (.branch again) >>= fun _ => Emit.mark stop) fun _ t => t.Tracks least pending := by
    refine (hbody.withLoop hbehind hround).bind fun _ => Meets.mark ?_
    refine hupdate.before (Meets.jump rfl hknown ?_)
    exact Meets.weaken (Nat.le_trans hagain (Nat.le_of_lt hknown)) (meets_mark stop)
  refine Meets.perm ((List.reverse_perm [again, next, stop]).append_right pending) (Meets.mark ?_)
  cases condition with
  | none => exact hrounds
  | some x => exact (hcondition x rfl).before (Meets.jump rfl hbehind hrounds)

end Orderly

/-- That labels are kept track of passes from the parts of a computation to the whole. -/
theorem orderly_closed : Closed CompileError.IsAboutSource fun _ => Orderly where
  refused := CompileError.isAboutSource_refused
  misused := CompileError.isAboutSource_misused
  pure := .pure
  throw := .throw
  bind := .bind
  get := .get
  represent := .represent
  instr := .instr
  addTemporary := .addTemporary
  declareLocal := .declareLocal
  withBlock := .withBlock
  shortCircuit := .shortCircuit
  conditional := .conditional
  choice := .choice
  whileLoop := .whileLoop
  doWhileLoop hbody hcondition := .doWhileLoop hcondition hbody
  forLoop := .forLoop
  exitLoop location := .jumpInLoop _ location fun _ _ h => h.1
  nextRound location := .jumpInLoop _ location fun _ _ h => h.2

theorem Orderly.bindParameter (name : Option String) (type : CType) (location : Location) :
    Orderly (Emit.bindParameter name type location) := by
  have hentry : ∀ target, Orderly (Emit.assemble (Assembly.addParameter name target)) := fun target =>
    .assemble fun _ => ⟨_, _, rfl, rfl, rfl, rfl⟩
  refine .bind (.represent _ _) fun target => .bind (hentry target) fun index => ?_
  cases name with
  | none => exact .pure _
  | some name =>
    intro least pending s hs
    dsimp only
    rw [get_bind_apply, set_bind_apply]
    have hnamed : ({ s with parameters := (name, ⟨.parameter index, type⟩) :: s.parameters } :
        Scope).Tracks least pending :=
      hs.same rfl rfl (fun _ hi => .inl hi) (fun _ hmem => .inl hmem) rfl
    exact Orderly.optionally (.throw (CompileError.isAboutSource_misused _ _)) (.pure index) least pending
      _ hnamed

end Emit

end ManagedC
