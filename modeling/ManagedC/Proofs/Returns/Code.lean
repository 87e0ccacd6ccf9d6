import ManagedC.Proofs.Returns.Flow
import ManagedC.Proofs.Stack.Height

/-!
# Where control goes in compiled code

Control does not get out of the code of an expression but at its end, and out of the code of a
statement only at its end or at a label of a loop around it (`Emission.Code.leads`,
`Body.Code.leads`). Hence it never comes to the end of statements one of which returns, whatever the
others are: `Body.Code.stays` is by induction on the statements that `Body.returns` looks into, and
all others are taken as pieces of code out of which control goes at the end.
-/

namespace ManagedC

open Relation (ReflTransGen)

variable {M : Method} {s t u : Scope} {p q : Nat} {T T' : Nat → Prop}

namespace Method

/-- From the instructions between two places control goes only to certain places. -/
def Leads (M : Method) (p q : Nat) (T : Nat → Prop) : Prop :=
  ∀ pc, p ≤ pc → pc < q → ∀ pc', M.Flows pc pc' → T pc'

namespace Leads

theorem refl (p : Nat) : M.Leads p p T := fun _ hp hq => by omega

theorem trans {r : Nat} (h : M.Leads p q T) (h' : M.Leads q r T) : M.Leads p r T := by
  intro pc hp hr
  by_cases hq : pc < q
  · exact h pc hp hq
  · exact h' pc (Nat.le_of_not_lt hq) hr

theorem mono (h : M.Leads p q T) (hT : ∀ pc, T pc → T' pc) : M.Leads p q T' :=
  fun pc hp hq pc' hflow => hT pc' (h pc hp hq pc' hflow)

/-- One instruction leads to its target and to the next one, unless it is a terminator. -/
theorem single {i : Instruction} (hi : M.body.instructions[p]? = some i)
    (hnext : i.isTerminator = false → T (p + 1))
    (hjump : ∀ label offset, i.target? = some label → M.body.labels.offset? label = some offset →
      T offset) : M.Leads p (p + 1) T := by
  intro pc hp hq pc' hflow
  obtain rfl : pc = p := by omega
  cases hflow with
  | next hj hterminator =>
    rw [hi] at hj
    cases hj
    exact hnext hterminator
  | jump hj htarget hoffset =>
    rw [hi] at hj
    cases hj
    exact hjump _ _ htarget hoffset

/-- An instruction that does not jump leads to the next one. -/
theorem single_next {i : Instruction} (hi : M.body.instructions[p]? = some i)
    (htarget : i.target? = none) (hnext : T (p + 1)) : M.Leads p (p + 1) T := by
  refine single hi (fun _ => hnext) ?_
  intro label offset hlabel
  rw [htarget] at hlabel
  cases hlabel

/-- Code without jumps leads to its end. -/
theorem of_code {code : List Instruction} (hcode : M.HasCode p code)
    (hjumps : ∀ i ∈ code, i.target? = none)
    (hT : ∀ pc, p ≤ pc → pc ≤ p + code.length → T pc) : M.Leads p (p + code.length) T := by
  induction code generalizing p with
  | nil => exact .refl p
  | cons i code ih =>
    obtain ⟨hi, hjumps⟩ := List.forall_mem_cons.1 hjumps
    rw [List.length_cons] at hT ⊢
    have hhead : M.Leads p (p + 1) T := by
      refine single hcode.head (fun _ => hT _ (by omega) (by omega)) fun label offset htarget => ?_
      rw [hi] at htarget
      cases htarget
    have htail := ih hcode.tail hjumps fun pc hp hq => hT pc (by omega) (by omega)
    rw [show p + (code.length + 1) = p + 1 + code.length by omega]
    exact hhead.trans htail

end Leads

/-- A piece of a method out of which control goes only to where it stays. -/
theorem Stays.of_leads (h : M.Leads p q fun pc => p ≤ pc ∧ pc < q ∨ M.Stays pc)
    (hq : q ≤ M.body.instructions.size) {pc : Nat} (hp : p ≤ pc) (hpc : pc < q) : M.Stays pc := by
  intro pc' hflows
  induction hflows using ReflTransGen.head_induction_on with
  | refl => omega
  | head hflow hrest ih =>
    rename_i a c
    rcases h a hp hpc c hflow with ⟨hle, hlt⟩ | hstays
    · exact ih hle hlt
    · exact hstays _ hrest

/-- If control stays at the end of a piece of a method, and wherever else it gets out, it stays in
all of it. -/
theorem Stays.of_end (h : M.Leads p q fun pc => p ≤ pc ∧ pc ≤ q ∨ M.Stays pc) (hpq : p ≤ q)
    (hq : q ≤ M.body.instructions.size) (hend : M.Stays q) : M.Stays p := by
  rcases Nat.eq_or_lt_of_le hpq with rfl | hlt
  · exact hend
  refine Stays.of_leads (h.mono fun pc hpc => ?_) hq (Nat.le_refl p) hlt
  rcases hpc with ⟨hle, hle'⟩ | hstays
  · rcases Nat.eq_or_lt_of_le hle' with rfl | hlt
    · exact .inr hend
    · exact .inl ⟨hle, hlt⟩
  · exact .inr hstays

/-- At a return control leaves the method. -/
theorem Stays.of_ret (h : M.body.instructions[p]? = some .ret) : M.Stays p := by
  have hp := (Array.getElem?_eq_some_iff.1 h).1
  have hleads : M.Leads p (p + 1) fun pc => p ≤ pc ∧ pc < p + 1 ∨ M.Stays pc :=
    .single h nofun nofun
  exact Stays.of_leads hleads hp (Nat.le_refl p) (Nat.lt_succ_self p)

end Method

open Method (Leads)

/-! ## Pieces of code -/

namespace Scope

theorem Grows.offset_le (h : s.Grows t) : s.offset ≤ t.offset := h.method.size_le

theorem Grows.loops (h : s.Grows t) : t.loops = s.loops := by rw [h.eq]

/-- A label that was bound stands for one place in the finished method. -/
theorem Binds.offset_eq {label : Label} (h : s.Binds label t) (hM : t.assembler.method.Extends M)
    {offset : Nat} (ho : M.body.labels.offset? label = some offset) : offset = t.offset :=
  Option.some.inj (ho.symm.trans (h.stands hM))

/-- A label that was bound inside a piece of code stands for a place of it. -/
theorem Binds.between {label : Label} (h : s.Binds label t) (hM : t.assembler.method.Extends M)
    (hp : p ≤ t.offset) (hq : t.offset ≤ q) {offset : Nat}
    (ho : M.body.labels.offset? label = some offset) : p ≤ offset ∧ offset ≤ q := by
  obtain rfl := h.offset_eq hM ho
  exact ⟨hp, hq⟩

/-- A place between the start of a piece of code and its end, or at a label of a loop around it. -/
def Around (s : Scope) (M : Method) (stop pc : Nat) : Prop :=
  s.offset ≤ pc ∧ pc ≤ stop ∨ ∃ labels ∈ s.loops,
    M.body.labels.offset? labels.exit = some pc ∨ M.body.labels.offset? labels.next = some pc

/-- Outside of all loops only the places of the code itself are around it. -/
theorem Around.of_nil (hloops : s.loops = []) {stop pc : Nat} (h : s.Around M stop pc) :
    s.offset ≤ pc ∧ pc ≤ stop := by
  rcases h with hin | ⟨labels, hmem, -⟩
  · exact hin
  · rw [hloops] at hmem
    cases hmem

/-- What is around a part is around the whole. -/
theorem Around.of_part (hs : s.Grows u) {stop stop' pc : Nat} (hstop : stop ≤ stop')
    (h : u.Around M stop pc) : s.Around M stop' pc := by
  have hle := hs.offset_le
  rcases h with ⟨hp, hq⟩ | hloops
  · exact .inl ⟨by omega, by omega⟩
  · rw [hs.loops] at hloops
    exact .inr hloops

/-- What is around the body of a loop is around the loop, if the labels of the loop are inside it. -/
theorem Around.of_loop (hs : s.Grows u) {labels : LoopLabels} {stop stop' pc : Nat}
    (hstop : stop ≤ stop')
    (hexit : ∀ offset, M.body.labels.offset? labels.exit = some offset →
      s.offset ≤ offset ∧ offset ≤ stop')
    (hnext : ∀ offset, M.body.labels.offset? labels.next = some offset →
      s.offset ≤ offset ∧ offset ≤ stop')
    (h : (u.openLoop labels).Around M stop pc) : s.Around M stop' pc := by
  rcases h with hin | ⟨labels', hmem, htarget⟩
  · exact Around.of_part hs hstop (.inl hin)
  rcases List.mem_cons.1 hmem with rfl | hmem
  · rcases htarget with ho | ho
    · exact .inl (hexit pc ho)
    · exact .inl (hnext pc ho)
  · rw [hs.loops] at hmem
    exact .inr ⟨labels', hmem, htarget⟩

/-- Between two states of a scope code was emitted out of which control goes only at its end and to the
loops around it. -/
structure Spans (s t : Scope) : Prop where
  grows : s.Grows t
  /-- Where control goes, in whatever method the code ends up. -/
  leads : ∀ {M : Method}, t.assembler.method.Extends M →
    M.Leads s.offset t.offset (s.Around M t.offset)

namespace Spans

/-- Where control goes from a part of a piece of code. -/
theorem leads_part (h : u.Spans t) (hM : t.assembler.method.Extends M) (hs : s.Grows u)
    {stop : Nat} (hstop : t.offset ≤ stop) : M.Leads u.offset t.offset (s.Around M stop) :=
  (h.leads hM).mono fun _ => Around.of_part hs hstop

theorem refl (s : Scope) : s.Spans s := ⟨.refl s, fun _ => .refl _⟩

theorem trans (h : s.Spans u) (h' : u.Spans t) : s.Spans t where
  grows := h.grows.trans h'.grows
  leads hM := (h.leads_part (h'.grows.method.trans hM) (.refl s) h'.grows.offset_le).trans
    (h'.leads_part hM h.grows (Nat.le_refl _))

/-- If control stays at the end of a piece of code outside of all loops, it stays at the start. -/
theorem stays (h : s.Spans t) (hM : t.assembler.method.Extends M) (hloops : s.loops = [])
    (hend : M.Stays t.offset) : M.Stays s.offset := by
  exact .of_end ((h.leads hM).mono fun pc hpc => .inl (hpc.of_nil hloops)) h.grows.offset_le
    hM.size_le hend

/-- No instruction is emitted. -/
theorem of_offset_eq (h : s.Grows t) (hoffset : t.offset = s.offset) : s.Spans t :=
  ⟨h, fun _ => hoffset ▸ .refl _⟩

theorem binds {label : Label} (h : s.Binds label t) : s.Spans t :=
  of_offset_eq h.emits.grows h.offset

/-- Instructions that do not jump. -/
theorem append (s : Scope) (ts : List TargetType) {code : List Instruction}
    (hplain : ∀ i ∈ code, i.isPlain = true) (hjumps : ∀ i ∈ code, i.target? = none) :
    s.Spans (s.append ts code) := by
  refine ⟨(emits_append s ts hplain).grows, fun hM => ?_⟩
  rw [offset_append]
  exact .of_code (hasCode_append hM) hjumps fun pc hp hq => .inl ⟨hp, hq⟩

end Spans

theorem emits_single (s : Scope) (i : Instruction) (hplain : i.isPlain = true) :
    s.Emits (s.append [] [i]) := by
  refine emits_append s [] fun j hj => ?_
  rw [List.mem_singleton.1 hj]
  exact hplain

/-- A jump leads to its target, and to its end unless it is always made. -/
theorem leads_jump {i : Instruction} {label : Label} (hi : i.target? = some label)
    (hM : (s.append [] [i]).assembler.method.Extends M)
    (hlabel : ∀ offset, M.body.labels.offset? label = some offset → T offset)
    (hT : i.isTerminator = false → T (s.append [] [i]).offset) :
    M.Leads s.offset (s.append [] [i]).offset T := by
  rw [offset_append] at hT ⊢
  refine .single (hasCode_append hM).head hT fun label' offset htarget hoffset => ?_
  rw [hi] at htarget
  cases htarget
  exact hlabel offset hoffset

/-- A jump that is always made leads to its target only. -/
theorem leads_unconditional {label : Label}
    (hM : (s.append [] [.branch label]).assembler.method.Extends M)
    (hlabel : ∀ offset, M.body.labels.offset? label = some offset → T offset) :
    M.Leads s.offset (s.append [] [.branch label]).offset T :=
  leads_jump rfl hM hlabel (by simp [Instruction.isTerminator])

end Scope

/-! ## Code without jumps -/

theorem target_of_mem_coercion {source target : CType} :
    ∀ i ∈ coercion source target, i.target? = none := by
  unfold coercion
  repeat' split
  all_goals simp [Instruction.target?]

/-- The code of an operator does not jump. -/
theorem OperatorCode.target_of_mem {slot : UInt16} {op : BinaryOp} {left right type : CType}
    {ts : List TargetType} {code : List Instruction}
    (h : OperatorCode slot op left right ts code type) : ∀ i ∈ code, i.target? = none := by
  have hunification : ∀ i ∈ unification left right slot, i.target? = none := by
    unfold unification
    repeat' split
    all_goals simp [Instruction.target?]
  have hcomparison : ∀ op : ComparisonOp, ∀ i ∈ comparisonCode op, i.target? = none := by
    intro op
    unfold comparisonCode
    split <;> simp [Instruction.target?]
  have hscaling : ∀ size, ∀ i ∈ scaling size, i.target? = none := by
    intro size
    unfold scaling
    split <;> simp [Instruction.target?]
  cases h with
  | compareIntegers => exact List.forall_mem_append.2 ⟨hunification, hcomparison _⟩
  | integers => exact List.forall_mem_append.2 ⟨hunification, by simp [Instruction.target?]⟩
  | comparePointers => exact hcomparison _
  | movePointer size =>
    exact List.forall_mem_append.2 ⟨hscaling size, by simp [Instruction.target?]⟩
  | stepsFirst size =>
    refine List.forall_mem_append.2 ⟨List.forall_mem_cons.2 ⟨rfl, hscaling size⟩, ?_⟩
    simp [Instruction.target?]
  | difference size =>
    unfold unscaling
    split <;> simp [Instruction.target?]

theorem Variable.target_load (v : Variable) : ∀ i ∈ [v.load], i.target? = none := by
  obtain ⟨_ | _, _⟩ := v <;> simp [load, Instruction.target?]

theorem Variable.target_store (v : Variable) : ∀ i ∈ [.dup, v.store], i.target? = none := by
  obtain ⟨_ | _, _⟩ := v <;> simp [store, Instruction.target?]

/-! ## Expressions -/

/-- Control does not get out of the code of an operator that may leave out its second operand but at
its end. -/
theorem Scope.Spans.logical {v w : Scope} {op : LogicalOp}
    (hleft : (s.reserve 2).Spans u)
    (hright : (u.append [] [.branchIf op.decisive s.nextLabel]).Spans v)
    (hw : (v.append [] [.branchIf op.decisive s.nextLabel, .constInt32 (1 - op.decidedValue),
      .branch (s.nextLabel + 1)]).Binds s.nextLabel w)
    (ht : (w.append [] [.constInt32 op.decidedValue]).Binds (s.nextLabel + 1) t) : s.Spans t := by
  have hjump := u.emits_single (.branchIf op.decisive s.nextLabel) rfl
  have hlast := @Scope.emits_append v [] [.branchIf op.decisive s.nextLabel,
    .constInt32 (1 - op.decidedValue), .branch (s.nextLabel + 1)] (by simp [Instruction.isPlain])
  have hvalue := @Scope.Spans.append w [] [.constInt32 op.decidedValue]
    (by simp [Instruction.isPlain]) (by simp [Instruction.target?])
  have hu := (Scope.emits_reserve s 2).grows.trans hleft.grows
  have hv := hu.trans (hjump.grows.trans hright.grows)
  have hw' := hv.trans (hlast.grows.trans hw.emits.grows)
  have ht' := hvalue.grows.trans ht.emits.grows
  refine ⟨hw'.trans ht', fun {M} hM => ?_⟩
  have hwM := ht'.method.trans hM
  have hvM' := hw.emits.method.trans hwM
  have hvM := hlast.method.trans hvM'
  have huM' := hright.grows.method.trans hvM
  have hwoffset := hw.offset
  have htoffset := ht.offset
  have hle := hright.grows.offset_le
  have hle' := hu.offset_le
  simp only [Scope.offset_append, List.length_cons, List.length_nil] at hwoffset htoffset hle
  have hdecided : ∀ offset, M.body.labels.offset? s.nextLabel = some offset →
      s.Around M t.offset offset :=
    fun _ ho => .inl (hw.between hwM hw'.offset_le ht'.offset_le ho)
  have hend : ∀ offset, M.body.labels.offset? (s.nextLabel + 1) = some offset →
      s.Around M t.offset offset :=
    fun _ ho => .inl (ht.between hM (hw'.trans ht').offset_le (Nat.le_refl _) ho)
  have hfirst := hleft.leads_part (hjump.method.trans huM') (Scope.emits_reserve s 2).grows
    (by omega : _ ≤ t.offset)
  have htest := Scope.leads_jump rfl huM' hdecided fun _ => .inl (by simp; omega)
  have hsecond := hright.leads_part hvM (hu.trans hjump.grows) (by omega : _ ≤ t.offset)
  have hundecided : M.Leads v.offset w.offset (s.Around M t.offset) := by
    have hcode := Scope.hasCode_append hvM'
    have hbranchIf : M.Leads v.offset (v.offset + 1) (s.Around M t.offset) := by
      refine .single hcode.head (fun _ => .inl (by omega)) ?_
      rintro _ offset ⟨⟩ ho
      exact hdecided offset ho
    have hconst : M.Leads (v.offset + 1) (v.offset + 1 + 1) (s.Around M t.offset) :=
      .single_next hcode.tail.head rfl (.inl (by omega))
    have hbranch : M.Leads (v.offset + 1 + 1) (v.offset + 1 + 1 + 1) (s.Around M t.offset) := by
      refine .single hcode.tail.tail.head (by simp [Instruction.isTerminator]) ?_
      rintro _ offset ⟨⟩ ho
      exact hend offset ho
    rw [hwoffset]
    exact hbranchIf.trans (hconst.trans hbranch)
  have hlater := (hvalue.trans (.binds ht)).leads_part hM hw' (Nat.le_refl _)
  exact hfirst.trans (htest.trans (hsecond.trans (hundecided.trans hlater)))

/-- Control does not get out of the code of an expression but at its end. -/
theorem Emission.Code.spans {e : Emission} (h : e.Code s t) : s.Spans t := by
  induction h with
  | intLiteral | longLiteral =>
    exact .append _ _ (by simp [Instruction.isPlain]) (by simp [Instruction.target?])
  | identifier => exact .append _ _ (Variable.isPlain_load _) (Variable.target_load _)
  | logical _ _ _ _ hw ht ihl ihr => exact .logical ihl ihr hw ht
  | binary _ _ hcode ihl ihr =>
    exact ihl.trans (ihr.trans (.append _ _ hcode.isPlain hcode.target_of_mem))
  | negate _ _ ih | bitNot _ _ ih | logicalNot _ _ ih | load _ _ ih | call _ _ _ ih =>
    exact ih.trans (.append _ _ (by simp [Instruction.isPlain]) (by simp [Instruction.target?]))
  | assign _ _ _ ih =>
    refine ih.trans (.append _ _ ?_ ?_)
    · exact List.forall_mem_append.2 ⟨isPlain_coercion, Variable.isPlain_store _⟩
    · exact List.forall_mem_append.2 ⟨target_of_mem_coercion, Variable.target_store _⟩
  | update _ _ hcode _ ih =>
    refine .trans (.append _ _ (Variable.isPlain_load _) (Variable.target_load _))
      (ih.trans (.append _ _ ?_ ?_))
    · exact List.forall_mem_append.2
        ⟨List.forall_mem_append.2 ⟨hcode.isPlain, isPlain_coercion⟩, Variable.isPlain_store _⟩
    · exact List.forall_mem_append.2 ⟨List.forall_mem_append.2
        ⟨hcode.target_of_mem, target_of_mem_coercion⟩, Variable.target_store _⟩
  | assignThrough _ _ _ _ iha ihv =>
    refine iha.trans (ihv.trans (.append _ _ ?_ ?_))
    · exact List.forall_mem_append.2 ⟨isPlain_coercion, by simp [Instruction.isPlain]⟩
    · exact List.forall_mem_append.2 ⟨target_of_mem_coercion, by simp [Instruction.target?]⟩
  | updateThrough _ _ _ hcode _ hw iha ihv =>
    subst hw
    refine iha.trans (.trans (.append _ _ (by simp [Instruction.isPlain])
      (by simp [Instruction.target?])) (ihv.trans (.trans
      (.append _ _ hcode.isPlain hcode.target_of_mem) (.append _ _ ?_ ?_))))
    · exact List.forall_mem_append.2 ⟨isPlain_coercion, by simp [Instruction.isPlain]⟩
    · exact List.forall_mem_append.2 ⟨target_of_mem_coercion, by simp [Instruction.target?]⟩
  | subscript _ _ hcode _ iha ihi =>
    exact iha.trans (ihi.trans (.append _ _ hcode.isPlain hcode.target_of_mem))
  | dereference _ _ ih => exact ih
  | noArguments => exact .refl _
  | argument _ _ _ ihe ih =>
    exact ihe.trans (.trans (.append _ _ isPlain_coercion target_of_mem_coercion) ih)

/-- Control does not get out of the code of an expression whose value is dropped but at its end. -/
theorem Expression.EffectCode.spans {e : Option Expression} (h : EffectCode s e t) : s.Spans t := by
  cases h with
  | none => exact .refl _
  | some he =>
    refine he.spans.trans (.append _ _ ?_ ?_)
    · split <;> simp [Instruction.isPlain]
    · split <;> simp [Instruction.target?]

/-- Control gets out of a test at its end and to the label that it jumps to. -/
theorem Expression.TestCode.leads {e : Option Expression} {label : Label} (h : TestCode s e label t)
    (hM : t.assembler.method.Extends M) (hT : ∀ pc, s.Around M t.offset pc → T pc)
    (hlabel : ∀ offset, M.body.labels.offset? label = .some offset → T offset) :
    M.Leads s.offset t.offset T := by
  cases h with
  | none => exact .refl _
  | @some u e type _ he _ =>
    have hjump := u.emits_single (.branchIf false label) rfl
    have hle := (he.spans.grows.trans hjump.grows).offset_le
    have hvalue := he.spans.leads_part (hjump.method.trans hM) (.refl s) hjump.grows.offset_le
    exact (hvalue.mono hT).trans
      (Scope.leads_jump rfl hM hlabel fun _ => hT _ (.inl ⟨hle, Nat.le_refl _⟩))

/-- Control does not get out of the code of local declarations but at its end. -/
theorem LocalDeclaration.ListCode.spans {ds : List LocalDeclaration} (h : ListCode s ds t) :
    s.Spans t := by
  induction h with
  | nil => exact .refl _
  | cons hd _ ih =>
    refine .trans ?_ ih
    cases hd with
    | plain => exact .of_offset_eq (Scope.grows_declareVariable _ _ _ _) rfl
    | initialized _ he =>
      refine he.spans.trans (.trans
        (.of_offset_eq (Scope.grows_declareVariable _ _ _ _) rfl) (.append _ _ ?_ ?_))
      · exact List.forall_mem_append.2 ⟨isPlain_coercion, by simp [Instruction.isPlain]⟩
      · exact List.forall_mem_append.2 ⟨target_of_mem_coercion, by simp [Instruction.target?]⟩

/-! ## Statements -/

namespace Scope.Spans

variable {a b v w x : Scope} {condition : Expression} {test update : Option Expression}

/-- A choice without an alternative. -/
theorem conditional
    (hc : Expression.TestCode (s.reserve 1) (some condition) s.nextLabel u) (hbody : u.Spans v)
    (hm : v.Binds s.nextLabel t) : s.Spans t := by
  have hreserved := (Scope.emits_reserve s 1).grows
  have hu := hreserved.trans hc.emits.grows
  have hv := hu.trans hbody.grows
  refine ⟨hv.trans hm.emits.grows, fun {M} hM => ?_⟩
  have hvM := hm.emits.method.trans hM
  have huM := hbody.grows.method.trans hvM
  have hoffset := hm.offset
  have hle := hbody.grows.offset_le
  have htest := hc.leads huM (T := s.Around M t.offset)
    (fun _ => Scope.Around.of_part hreserved (by omega))
    fun _ ho => .inl (hm.between hM (hoffset ▸ hv.offset_le) (Nat.le_refl _) ho)
  have hthen := hbody.leads_part hvM hu (by omega : _ ≤ t.offset)
  exact hoffset ▸ htest.trans hthen

/-- A choice between two branches. There is no jump over the second one if control cannot get there. -/
theorem choice (hc : Expression.TestCode (s.reserve 1) (some condition) s.nextLabel u)
    (hthen : u.Spans v)
    (hm : ((v.reserve 1).append []
      (if v.assembler.isTerminated then [] else [.branch v.nextLabel])).Binds s.nextLabel w)
    (helse : w.Spans x) (ht : x.Binds v.nextLabel t) : s.Spans t := by
  have hjump := v.emits_jumpOver
  have hreserved := (Scope.emits_reserve s 1).grows
  have hu := hreserved.trans hc.emits.grows
  have hv := (hu.trans hthen.grows).trans (Scope.emits_reserve v 1).grows
  have hw := (hv.trans hjump.grows).trans hm.emits.grows
  have hx := hw.trans helse.grows
  refine ⟨hx.trans ht.emits.grows, fun {M} hM => ?_⟩
  have hxM := ht.emits.method.trans hM
  have hwM := helse.grows.method.trans hxM
  have hjM := hm.emits.method.trans hwM
  have hvM := hjump.method.trans hjM
  have huM := hthen.grows.method.trans hvM
  have hvle := hthen.grows.offset_le
  have hjle : v.offset ≤ _ := hjump.grows.offset_le
  have hwoffset := hm.offset
  have hxle := helse.grows.offset_le
  have htoffset := ht.offset
  have hend : ∀ offset, M.body.labels.offset? v.nextLabel = some offset →
      s.Around M t.offset offset :=
    fun _ ho => .inl (ht.between hM (htoffset ▸ hx.offset_le) (Nat.le_refl _) ho)
  have htest := hc.leads huM (T := s.Around M t.offset)
    (fun _ => Scope.Around.of_part hreserved (by omega))
    fun _ ho => .inl (hm.between hwM hw.offset_le (by omega) ho)
  have hfirst := hthen.leads_part hvM hu (by omega : _ ≤ t.offset)
  have hover : M.Leads v.offset w.offset (s.Around M t.offset) := by
    rw [hwoffset]
    cases hterminated : v.assembler.isTerminated with
    | true =>
      rw [if_pos rfl, Scope.append_nil]
      exact .refl _
    | false =>
      rw [hterminated] at hjM
      exact Scope.leads_unconditional (s := v.reserve 1) hjM hend
  have hsecond := helse.leads_part hxM hw (by omega : _ ≤ t.offset)
  exact htoffset ▸ htest.trans (hfirst.trans (hover.trans hsecond))

/-- A loop that tests before its body. -/
theorem whileLoop (ha : (s.reserve 2).Binds s.nextLabel a)
    (hc : Expression.TestCode a (some condition) (s.nextLabel + 1) u)
    (hbody : (u.openLoop ⟨s.nextLabel + 1, s.nextLabel⟩).Spans v)
    (ht : (v.closeLoop.append [] [.branch s.nextLabel]).Binds (s.nextLabel + 1) t) :
    s.Spans t := by
  have hjump := v.closeLoop.emits_single (.branch s.nextLabel) rfl
  have ha' := (Scope.emits_reserve s 2).grows.trans ha.emits.grows
  have hu := ha'.trans hc.emits.grows
  have hj := (hu.trans hbody.grows.closeLoop).trans hjump.grows
  refine ⟨hj.trans ht.emits.grows, fun {M} hM => ?_⟩
  have hjM := ht.emits.method.trans hM
  have hvM := hjump.method.trans hjM
  have huM := hbody.grows.method.trans hvM
  have haM := hc.emits.method.trans huM
  have htoffset := ht.offset
  have hale := ha'.offset_le
  have hule := hc.emits.grows.offset_le
  have hvle : u.offset ≤ v.offset := hbody.grows.offset_le
  have hjle : v.offset ≤ _ := hjump.grows.offset_le
  have hexit : ∀ offset, M.body.labels.offset? (s.nextLabel + 1) = some offset →
      s.offset ≤ offset ∧ offset ≤ t.offset :=
    fun _ => ht.between hM (by omega) (Nat.le_refl _)
  have hagain : ∀ offset, M.body.labels.offset? s.nextLabel = some offset →
      s.offset ≤ offset ∧ offset ≤ t.offset :=
    fun _ => ha.between haM hale (by omega)
  have htest := hc.leads huM (fun _ => Scope.Around.of_part ha' (by omega : _ ≤ t.offset))
    fun offset ho => .inl (hexit offset ho)
  have hround := (hbody.leads hvM).mono fun _ =>
    Scope.Around.of_loop hu (by omega : _ ≤ t.offset) hexit hagain
  have hback := Scope.leads_unconditional (T := s.Around M t.offset) hjM
    fun offset ho => .inl (hagain offset ho)
  rw [← htoffset] at hback
  exact ha.offset ▸ htest.trans (hround.trans hback)

/-- A loop that tests after its body. -/
theorem doWhileLoop (ha : (s.reserve 3).Binds s.nextLabel a)
    (hbody : (a.openLoop ⟨s.nextLabel + 2, s.nextLabel + 1⟩).Spans v)
    (hw : v.closeLoop.Binds (s.nextLabel + 1) w) (hx : w.Spans x)
    (ht : (x.append [] [.branchIf true s.nextLabel]).Binds (s.nextLabel + 2) t) : s.Spans t := by
  have hjump := x.emits_single (.branchIf true s.nextLabel) rfl
  have ha' := (Scope.emits_reserve s 3).grows.trans ha.emits.grows
  have hw' := (ha'.trans hbody.grows.closeLoop).trans hw.emits.grows
  refine ⟨(hw'.trans hx.grows).trans (hjump.trans ht.emits).grows, fun {M} hM => ?_⟩
  have hjM := ht.emits.method.trans hM
  have hxM := hjump.method.trans hjM
  have hwM := hx.grows.method.trans hxM
  have hvM := hw.emits.method.trans hwM
  have haM := hbody.grows.method.trans hvM
  have hale := ha'.offset_le
  have hvle : a.offset ≤ v.offset := hbody.grows.offset_le
  have hwoffset : w.offset = v.offset := hw.offset
  have hxle := hx.grows.offset_le
  have htoffset := ht.offset
  rw [Scope.offset_append, List.length_singleton] at htoffset
  have hexit : ∀ offset, M.body.labels.offset? (s.nextLabel + 2) = some offset →
      s.offset ≤ offset ∧ offset ≤ t.offset :=
    fun _ => ht.between hM (by omega) (Nat.le_refl _)
  have hnext : ∀ offset, M.body.labels.offset? (s.nextLabel + 1) = some offset →
      s.offset ≤ offset ∧ offset ≤ t.offset :=
    fun _ => hw.between hwM (by omega) (by omega)
  have hagain : ∀ offset, M.body.labels.offset? s.nextLabel = some offset →
      s.Around M t.offset offset :=
    fun _ ho => .inl (ha.between haM hale (by omega) ho)
  have hround := (hbody.leads hvM).mono fun _ =>
    Scope.Around.of_loop ha' (by omega : _ ≤ t.offset) hexit hnext
  have htest := hx.leads_part hxM hw' (by omega : _ ≤ t.offset)
  have hback := Scope.leads_jump (T := s.Around M t.offset) rfl hjM hagain
    fun _ => .inl (by simp; omega)
  rw [← ht.offset] at hback
  rw [hw.offset] at htest
  exact ha.offset ▸ hround.trans (htest.trans hback)

/-- A loop with a start, a test and an update. -/
theorem forLoop (hstart : s.openBlock.Spans b) (ha : (b.reserve 3).Binds b.nextLabel a)
    (hc : Expression.TestCode a test (b.nextLabel + 2) u)
    (hbody : (u.openLoop ⟨b.nextLabel + 2, b.nextLabel + 1⟩).Spans v)
    (hw : v.closeLoop.Binds (b.nextLabel + 1) w) (hx : w.Spans x)
    (ht : (x.append [] [.branch b.nextLabel]).Binds (b.nextLabel + 2) t) :
    s.openBlock.Spans t := by
  have hjump := x.emits_single (.branch b.nextLabel) rfl
  have ha' := hstart.grows.trans ((Scope.emits_reserve b 3).grows.trans ha.emits.grows)
  have hu := ha'.trans hc.emits.grows
  have hw' := (hu.trans hbody.grows.closeLoop).trans hw.emits.grows
  refine ⟨(hw'.trans hx.grows).trans (hjump.trans ht.emits).grows, fun {M} hM => ?_⟩
  have hjM := ht.emits.method.trans hM
  have hxM := hjump.method.trans hjM
  have hwM := hx.grows.method.trans hxM
  have hvM := hw.emits.method.trans hwM
  have huM := hbody.grows.method.trans hvM
  have haM := hc.emits.method.trans huM
  have hbM := ((Scope.emits_reserve b 3).trans ha.emits).method.trans haM
  have hsb := hstart.grows.offset_le
  have haoffset : a.offset = b.offset := ha.offset
  have hule := hc.emits.grows.offset_le
  have hvle : u.offset ≤ v.offset := hbody.grows.offset_le
  have hwoffset : w.offset = v.offset := hw.offset
  have hxle := hx.grows.offset_le
  have htoffset := ht.offset
  rw [Scope.offset_append, List.length_singleton] at htoffset
  have hexit : ∀ offset, M.body.labels.offset? (b.nextLabel + 2) = some offset →
      s.openBlock.offset ≤ offset ∧ offset ≤ t.offset :=
    fun _ => ht.between hM (by omega) (Nat.le_refl _)
  have hnext : ∀ offset, M.body.labels.offset? (b.nextLabel + 1) = some offset →
      s.openBlock.offset ≤ offset ∧ offset ≤ t.offset :=
    fun _ => hw.between hwM (by omega) (by omega)
  have hagain : ∀ offset, M.body.labels.offset? b.nextLabel = some offset →
      s.openBlock.Around M t.offset offset :=
    fun _ ho => .inl (ha.between haM (by omega) (by omega) ho)
  have hfirst := hstart.leads_part hbM (.refl _) (by omega : _ ≤ t.offset)
  have htest := hc.leads huM (fun _ => Scope.Around.of_part ha' (by omega : _ ≤ t.offset))
    fun offset ho => .inl (hexit offset ho)
  have hround := (hbody.leads hvM).mono fun _ =>
    Scope.Around.of_loop hu (by omega : _ ≤ t.offset) hexit hnext
  have hupdate := hx.leads_part hxM hw' (by omega : _ ≤ t.offset)
  have hback := Scope.leads_unconditional (T := s.openBlock.Around M t.offset) hjM hagain
  rw [← ht.offset] at hback
  rw [hw.offset] at hupdate
  rw [haoffset] at htest
  exact hfirst.trans (htest.trans (hround.trans (hupdate.trans hback)))

/-- A jump to the end or to the next round of the innermost loop. -/
theorem jumpInLoop {labels : LoopLabels} {outer : List LoopLabels} {label : Label}
    (hl : s.loops = labels :: outer) (hlabel : label = labels.exit ∨ label = labels.next) :
    s.Spans (s.append [] [.branch label]) := by
  refine ⟨(s.emits_single (.branch label) rfl).grows, fun hM => ?_⟩
  refine Scope.leads_unconditional hM fun offset ho => .inr ⟨labels, hl ▸ List.mem_cons_self, ?_⟩
  rcases hlabel with rfl | rfl
  · exact .inl ho
  · exact .inr ho

end Scope.Spans

namespace Body.Code

/-- Control gets out of the code of statements only at its end and to the loops around it. -/
theorem spans {bs : List Body} (h : Body.Code s bs t) : s.Spans t := by
  induction h with
  | nil | empty => exact .refl _
  | cons _ _ ih ih' => exact ih.trans ih'
  | block hb ih => exact ⟨(Body.Code.block hb).grows, fun hM => ih.leads hM⟩
  | expression he => exact he.spans
  | declare hd => exact hd.spans
  | conditional hc _ hm ih => exact .conditional hc ih hm
  | choice hc _ hm _ ht ihthen ihelse => exact .choice hc ihthen hm ihelse ht
  | whileLoop ha hc _ ht ih => exact .whileLoop ha hc ih ht
  | doWhileLoop ha _ hw hx _ ht ih => exact .doWhileLoop ha ih hw hx.spans ht
  | forLoop hstart ha hc hb hw hx ht ihstart ihbody =>
    have hloop := Scope.Spans.forLoop ihstart ha hc ihbody hw hx.spans ht
    exact ⟨(Body.Code.forLoop hstart ha hc hb hw hx ht).grows, fun hM => hloop.leads hM⟩
  | exitLoop hl => exact .jumpInLoop hl (.inl rfl)
  | nextRound hl => exact .jumpInLoop hl (.inr rfl)
  | ret => exact .append _ _ (by simp [Instruction.isPlain]) (by simp [Instruction.target?])
  | retValue _ he =>
    refine he.spans.trans (.append _ _ ?_ ?_)
    · exact List.forall_mem_append.2 ⟨isPlain_coercion, by simp [Instruction.isPlain]⟩
    · exact List.forall_mem_append.2 ⟨target_of_mem_coercion, by simp [Instruction.target?]⟩

/-- From statements one of which returns control never comes to the end of the method, if there is no
loop around them that it could leave. -/
theorem stays {bs : List Body} (h : Body.Code s bs t) (hM : t.assembler.method.Extends M)
    (hloops : s.loops = []) (hreturns : Body.anyReturns bs = true) : M.Stays s.offset := by
  induction h with
  | nil | empty | expression | declare | conditional | whileLoop | doWhileLoop | forLoop | exitLoop
  | nextRound => simp [anyReturns, returns] at hreturns
  | cons hp hrest ih ih' =>
    have huM := hrest.grows.method.trans hM
    unfold anyReturns at hreturns
    rcases Bool.or_eq_true_iff.1 hreturns with hfirst | hlater
    · exact ih huM hloops (by simpa [anyReturns] using hfirst)
    · exact hp.spans.stays huM hloops (ih' hM (hp.grows.loops.trans hloops) hlater)
  | block hb ih => exact ih hM hloops (by simpa [anyReturns, returns] using hreturns)
  | @choice s u v w x t condition thenBranch elseBranch hc hthen hm helse ht ihthen ihelse =>
    obtain ⟨hfirst, hsecond⟩ : thenBranch.returns = true ∧ elseBranch.returns = true := by
      simpa [anyReturns, returns] using hreturns
    have hjump := v.emits_jumpOver
    have hu := (Scope.emits_reserve s 1).trans hc.emits
    have hw := hthen.grows.trans ((Scope.emits_reserve v 1).trans (hjump.trans hm.emits)).grows
    have hxM := ht.emits.method.trans hM
    have hwM := helse.grows.method.trans hxM
    have hvM := (hjump.trans hm.emits).method.trans hwM
    have huM := hthen.grows.method.trans hvM
    have huloops := hu.grows.loops.trans hloops
    have hthenStays := ihthen hvM huloops (by simpa [anyReturns] using hfirst)
    have helseStays := ihelse hxM (hw.loops.trans huloops) (by simpa [anyReturns] using hsecond)
    refine .of_end (hc.leads huM (fun pc hpc => ?_) fun offset ho => ?_) hu.grows.offset_le
      huM.size_le hthenStays
    · exact .inl (hpc.of_nil hloops)
    · rw [hm.offset_eq hwM ho]
      exact .inr helseStays
  | ret => exact .of_ret (Scope.hasCode_append hM).head
  | @retValue s u value type location _ he _ =>
    have hret := (u.append [] (coercion type s.signature.returnType)).emits_single .ret rfl
    rw [← List.append_nil ([] : List TargetType), ← Scope.append_append] at hM
    refine (he.spans.trans (.append _ _ isPlain_coercion target_of_mem_coercion)).stays
      (hret.method.trans hM) hloops (.of_ret (Scope.hasCode_append hM).head)

end Body.Code

end ManagedC
