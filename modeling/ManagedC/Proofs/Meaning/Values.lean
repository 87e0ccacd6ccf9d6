import ManagedC.Proofs.Kinds.Methods
import ManagedC.Proofs.Meaning.Points

/-!
# Expressions leave their values on the stack

One lemma for each rule of the language about expressions: if the code of the parts does what the rules say
of them, so does the code of the whole (`Expression.Realised`, `Expression.ListRealised`). Calls are what
other functions do, which is said by `CompiledFunction.Realised`.
-/

namespace ManagedC

open Meaning

/-- Compiled functions with names of their own and with parameters of integer types, and a program in which
calls find them. -/
structure Linked (program : Module) (fs : List CompiledFunction) : Prop where
  /-- What they can call is among them. -/
  known : ∀ F ∈ fs, ∀ e ∈ F.functions.entries, ∃ G ∈ fs, G.signature = e.signature
  found : ∀ F ∈ fs, program.findMethod? F.unit.name = some F.method
  nodup : (fs.map (·.unit.name)).Nodup
  /-- The parameters are integers with a sign. -/
  parameters : ∀ F ∈ fs, ∀ p ∈ F.unit.parameterList, ∃ w : Width, p.type = w.type
  /-- Slots have numbers of their own. -/
  addressable : ∀ F ∈ fs, F.method.Addressable

/-- What the compiler says of a result: a number is under its type, and no result has the type `void`. In
that case control can go on behind the code. -/
def Scope.Leaves (t : Scope) (result : Option Number) (type : CType) : Prop :=
  match result with
  | some n => n.Under type
  | none => type.isVoid = true ∧ t.assembler.isTerminated = false

/-- The value that is passed for a parameter of a type. -/
def CType.pass (type : CType) (n : Number) : Value :=
  (n.convert ((Width.of? type).getD .int)).toValue

theorem CType.pass_type (w : Width) (n : Number) : w.type.pass n = (n.convert w).toValue := by
  unfold CType.pass
  rw [Width.of?_eq_some.2 rfl]
  rfl

/-- Wherever an expression is compiled in a function, its code leaves the result on the stack. -/
def Expression.Realised (program : Module) (F : CompiledFunction) (f : Frame) (e : Expression)
    (result : Option Number) (g : Frame) : Prop :=
  ∀ {s t : Scope} {type : CType}, Emission.Code s (.value e type) t → s.Sound F →
    t.assembler.method.Extends F.method → ∀ (stack : List Value) (a : Activation),
    a.At F (s.point f stack) → t.Leaves result type ∧
      a.Comes program F (t.point g ((result.map Number.toValue).toList ++ stack))

/-- Wherever arguments are compiled in a function, their code leaves them on the stack, each converted to
the type of its parameter. -/
def Expression.ListRealised (program : Module) (F : CompiledFunction) (f : Frame)
    (es : List Expression) (ns : List Number) (g : Frame) : Prop :=
  ∀ {s t : Scope} {types : List CType}, Emission.Code s (.arguments es types) t → s.Sound F →
    t.assembler.method.Extends F.method → (∀ type ∈ types, ∃ w : Width, type = w.type) →
    ns.length = types.length ∧ ∀ stack : List Value, (s.point f stack).Leads program F
      (t.point g ((types.zipWith CType.pass ns).reverse ++ stack))

/-- The result is of the type that the function is declared with. -/
def FunctionUnit.Gives (u : FunctionUnit) : Option Number → Prop
  | some n => u.returnType = n.width.type
  | none => u.returnType.isVoid = true

/-- A call of a function with arguments has a result. -/
structure CompiledFunction.Realised (program : Module) (F : CompiledFunction) (ns : List Number)
    (result : Option Number) : Prop where
  answers : F.method.Answers program ((F.unit.parameterList.map (·.type)).zipWith CType.pass ns)
    (result.map Number.toValue)
  /-- The result is of the right type. -/
  gives : F.unit.Gives result

/-! ## Pieces of code -/

namespace Scope

variable {program : Module} {F : CompiledFunction} {s : Scope} {f g : Frame} {stack : List Value}
  {ts : List TargetType} {code : List Instruction} {left right type : CType} {a b c n m : Number}
  {name : String} {v : Variable}

/-- Local variables that are still to come have a number. -/
theorem locals_lt (haddressable : F.method.Addressable)
    (hM : (s.append ts code).assembler.method.Extends F.method) (hts : ts ≠ []) :
    s.assembler.method.locals.size < 2 ^ 16 := by
  have hlocals := hM.locals_le
  have hpos := List.length_pos_iff.2 hts
  have hle := haddressable.locals
  simp only [append, Array.size_append, List.size_toArray, List.length_map] at hlocals
  omega

/-- The code of an operator leaves the result. -/
theorem leads_operator {op : BinaryOp} (hcode : OperatorCode s.nextSlot op left right ts code type)
    (hs : s.Sound F) (haddressable : F.method.Addressable)
    (hM : (s.append ts code).assembler.method.Extends F.method) (ha : a.Under left)
    (hb : b.Under right) (hc : Number.combine? op a b = some c) :
    (s.point f (b.toValue :: a.toValue :: stack)).Leads program F
      ((s.append ts code).point f (c.toValue :: stack)) := by
  refine leads_append hM fun x hx => ?_
  have hslot : ts ≠ [] → s.nextSlot.toNat < x.locals.size ∧
      x.method.locals[s.nextSlot.toNat]? = some ⟨none, .int64, false⟩ := by
    intro hts
    have hnext : s.nextSlot.toNat = s.assembler.method.locals.size :=
      UInt16.toNat_ofNat_of_lt' (locals_lt haddressable hM hts)
    rw [hx.holds.locals, hx.holds.method]
    refine ⟨nextSlot_lt hM hts, hM.variableAt ?_⟩
    obtain rfl := hcode.temporaries ha.isPointer hb.isPointer hts
    rw [hnext]
    exact Array.getElem?_push_size
  refine ⟨_, fun store => Activation.follows_operator hcode ha.isPointer hb.isPointer hx.stack
    (Number.onWords?_of_combine? hc) hslot store, ?_, rfl⟩
  refine hx.holds.of_kept rfl ?_ rfl fun p hp => ?_
  · dsimp only
    unfold Activation.unifiedLocals
    split <;> simp
  · -- The temporary is above the slots of all names.
    have hbelow := hs.below p hp
    cases hslot' : p.2.slot with
    | parameter index => rfl
    | «local» index =>
      rw [hslot'] at hbelow
      show (x.unifiedLocals left right s.nextSlot b.toInt64)[index.toNat]? = _
      unfold Activation.unifiedLocals
      split
      · rfl
      · rename_i hunified
        have hts : ts ≠ [] := by
          cases hcode with
          | compareIntegers | integers => exact hunified
          | comparePointers _ _ hp => simp [ha.isPointer, hb.isPointer] at hp
          | movePointer _ hp => simp [ha.isPointer] at hp
          | stepsFirst _ _ _ hp => simp [hb.isPointer] at hp
          | difference _ hp => simp [ha.isPointer] at hp
        have hnext : s.nextSlot.toNat = s.assembler.method.locals.size :=
          UInt16.toNat_ofNat_of_lt' (locals_lt haddressable hM hts)
        have hlt : index.toNat < s.assembler.method.locals.size := hbelow
        exact Array.getElem?_setIfInBounds_ne (by omega)

/-- The value of a variable is pushed. -/
theorem leads_load (hv : s.findVariable? name = some v) (hread : f.read? name = some n)
    (hM : (s.append [] [v.load]).assembler.method.Extends F.method) :
    (s.point f stack).Leads program F ((s.append [] [v.load]).point f (n.toValue :: stack)) := by
  rw [findVariable?_eq] at hv
  refine leads_append hM fun x hx => ?_
  exact ⟨_, Activation.follows_load (hx.holds.read hread hv).2, hx.holds.move _ _,
    congrArg _ hx.stack⟩

/-- A conversion converts a number. -/
theorem leads_coercion (hn : n.Under type) (w : Width)
    (hM : (s.append [] (coercion type w.type)).assembler.method.Extends F.method) :
    (s.point f (n.toValue :: stack)).Leads program F
      ((s.append [] (coercion type w.type)).point f ((n.convert w).toValue :: stack)) :=
  leads_append_stack hM fun _ store ha => Activation.follows_coercion hn w ha store

/-- A store assigns to the variable of a name. -/
theorem leads_store (hs : s.Sound F) (hv : s.findVariable? name = some v)
    (hwrite : f.write? name n = some (m, g))
    (hM : (s.append [] [v.store]).assembler.method.Extends F.method) :
    (s.point f (m.toValue :: stack)).Leads program F ((s.append [] [v.store]).point g stack) := by
  rw [findVariable?_eq] at hv
  refine leads_append hM fun x hx => ?_
  obtain ⟨w, -, rfl, hdeclared, hholds⟩ := hx.holds.write hs.slots hwrite hv
  refine ⟨_, fun store => Activation.follows_store hx.stack hdeclared store, ?_, ?_⟩
  · rw [Number.narrow_convert]
    exact hholds.keep_move stack (x.pc + 1)
  · rw [Activation.stack_keep]

/-- A conversion and a store assign a number to a variable, and leave what it is now. -/
theorem comes_assign (hs : s.Sound F) (hv : s.findVariable? name = some v) (hn : n.Under type)
    (hM : (s.append [] (coercion type v.type ++ [.dup, v.store])).assembler.method.Extends F.method)
    (hwrite : f.write? name n = some (m, g)) {x : Activation}
    (hx : x.At F (s.point f (n.toValue :: stack))) : m.Under v.type ∧
      x.Comes program F ((s.append [] (coercion type v.type ++ [.dup, v.store])).point g
        (m.toValue :: stack)) := by
  obtain ⟨w, htype, hm, -, -⟩ := hx.holds.write hs.slots hwrite (s.findVariable?_eq name ▸ hv)
  have hsplit : s.append [] (coercion type v.type ++ [.dup, v.store]) =
      ((s.append [] (coercion type w.type)).append [] [.dup]).append [] [v.store] := by
    rw [append_append, append_append, htype]
    rfl
  rw [hsplit] at hM ⊢
  have hdup : (s.append [] (coercion type w.type)).Emits
      ((s.append [] (coercion type w.type)).append [] [.dup]) :=
    emits_append _ _ (by simp [Instruction.isPlain])
  have hstore : ∀ i ∈ [v.store], i.isPlain = true :=
    fun i hi => v.isPlain_store i (List.mem_cons_of_mem _ hi)
  have hdM := (emits_append _ _ hstore).extends hM
  have hcM := hdup.extends hdM
  have hds := (hs.emits (emits_append s [] isPlain_coercion)).emits hdup
  have hcopy : ((s.append [] (coercion type w.type)).point f (m.toValue :: stack)).Leads program F
      (((s.append [] (coercion type w.type)).append [] [.dup]).point f
        (m.toValue :: m.toValue :: stack)) :=
    leads_append_stack hdM fun _ _ ha => .cons rfl (.dup ha) rfl .nil
  have hconvert : x.Comes program F
      ((s.append [] (coercion type w.type)).point f (m.toValue :: stack)) := by
    rw [hm]
    exact leads_coercion hn w hcM x hx
  exact ⟨.inl (by rw [htype, hm]; rfl), (hconvert.leads hcopy).leads (leads_store hds hv hwrite hM)⟩

end Scope

/-! ## Rules -/

namespace Expression

variable {program : Module} {fs : List CompiledFunction} {F : CompiledFunction} {f g h : Frame}
  {span span' : Span} {name : String} {e left right operand : Expression} {es : List Expression}
  {a b c d n : Number} {ns : List Number} {result : Option Number}

theorem Realised.literal {v : Int64} :
    (intLiteral span v).Realised program F f (some (.literal v)) f := by
  intro s t type hcode hs hM stack x hx
  have hvalue : (Number.literal v).toValue = .int v := congrArg Value.int (Number.toInt64_literal v)
  cases hcode with
  | intLiteral hfits =>
    have hvalue : (Number.literal v).toValue = .int v.toInt32.toInt64 := by rw [hvalue, hfits]
    refine ⟨.inl (by rw [Number.width_literal hfits]; rfl),
      Scope.leads_append_stack hM (fun y store hy => ?_) x hx⟩
    show y.Follows store _ { y with stack := (Number.literal v).toValue :: stack, pc := y.pc + 1 }
    rw [hvalue, ← hy]
    exact .cons rfl .constInt32 rfl .nil
  | longLiteral =>
    refine ⟨.inr rfl, Scope.leads_append_stack hM (fun y store hy => ?_) x hx⟩
    show y.Follows store _ { y with stack := (Number.literal v).toValue :: stack, pc := y.pc + 1 }
    rw [hvalue, ← hy]
    exact .cons rfl .constInt64 rfl .nil
  | load haddress => cases haddress

theorem Realised.read (hread : f.read? name = some n) :
    (identifier span name).Realised program F f (some n) f := by
  intro s t type hcode hs hM stack x hx
  cases hcode with
  | identifier hv =>
    have htype := (hx.holds.read hread (s.findVariable?_eq name ▸ hv)).1
    exact ⟨.inl htype, Scope.leads_load hv hread hM x hx⟩
  | load haddress => cases haddress

/-- Code that replaces the value of an expression can be appended. -/
theorem Realised.replace {s u : Scope} {type : CType} {code : List Instruction}
    (he : e.Realised program F f (some a) g) (hcode : Emission.Code s (.value e type) u)
    (hs : s.Sound F) (hplain : ∀ i ∈ code, i.isPlain = true)
    (hM : (u.append [] code).assembler.method.Extends F.method)
    (hfollows : ∀ (y : Activation) (store : Store) (rest : List Value), y.stack = a.toValue :: rest →
      y.Follows store code { y with stack := b.toValue :: rest, pc := y.pc + code.length })
    {stack : List Value} {x : Activation} (hx : x.At F (s.point f stack)) : a.Under type ∧
      x.Comes program F ((u.append [] code).point g (b.toValue :: stack)) := by
  obtain ⟨hunder, hcomes⟩ := he hcode hs ((Scope.emits_append _ _ hplain).extends hM) stack x hx
  exact ⟨hunder, hcomes.leads
    (Scope.leads_append_stack hM fun y store hy => hfollows y store stack hy)⟩

theorem Realised.unary {op : UnaryOp} (ho : operand.Realised program F f (some a) g)
    (hop : Number.unary? op a = some b) :
    (Expression.unary span op operand).Realised program F f (some b) g := by
  intro s t type hcode hs hM stack x hx
  cases hcode with
  | negate hcode =>
    obtain ⟨hunder, hcomes⟩ := ho.replace hcode hs (by simp [Instruction.isPlain]) hM
      (fun y store rest hy => .cons rfl (.onTop rfl hy (congrArg (Except.ok ∘ Value.int)
        (Number.neg_toInt64 hop))) rfl .nil) hx
    exact ⟨hunder.unary (Number.eq_of_of? hop).1, hcomes⟩
  | bitNot hcode =>
    obtain ⟨hunder, hcomes⟩ := ho.replace hcode hs (by simp [Instruction.isPlain]) hM
      (fun y store rest hy => .cons rfl (.onTop rfl hy (congrArg (Except.ok ∘ Value.int)
        (Number.not_toInt64 hop))) rfl .nil) hx
    cases hop
    exact ⟨hunder.unary rfl, hcomes⟩
  | logicalNot hcode =>
    obtain rfl : Number.ofBool (!a.isTrue) = b := Option.some.inj hop
    have hvalue : Value.int (if a.toInt64 == 0 then 1 else 0) = (Number.ofBool (!a.isTrue)).toValue := by
      have htrue : (a.toInt64 != 0) = a.isTrue := a.isTrue_toValue
      rw [Number.toValue_ofBool, ← htrue, bne, Bool.not_not]
    obtain ⟨-, hcomes⟩ := ho.replace hcode hs (by simp [Instruction.isPlain]) hM
      (fun y store rest hy => .cons rfl .constInt32 rfl (.cons rfl (.onTop2 rfl
        (congrArg _ hy) (congrArg Except.ok hvalue)) rfl .nil)) hx
    exact ⟨.inl rfl, hcomes⟩
  | load haddress =>
    cases haddress with
    | dereference => cases hop

theorem Realised.binary {op : BinaryOp} (haddressable : F.method.Addressable)
    (hl : left.Realised program F f (some a) g) (hr : right.Realised program F g (some b) h)
    (hop : Number.combine? op a b = some c) :
    (Expression.binary span op left right).Realised program F f (some c) h := by
  intro s t type hcode hs hM stack x hx
  cases hcode with
  | binary hlcode hrcode hcode =>
    have hvM := (Scope.emits_append _ _ hcode.isPlain).extends hM
    obtain ⟨hleft, y, hxy, hy⟩ := hl hlcode hs (hrcode.emits.extends hvM) stack x hx
    have hus := hs.emits hlcode.emits
    obtain ⟨hright, hcomes⟩ := hr hrcode hus hvM _ y hy
    have hvs := hus.emits hrcode.emits
    exact ⟨Number.Under.binary hcode hleft hright hop,
      hxy.comes (hcomes.leads (Scope.leads_operator hcode hvs haddressable hM hleft hright hop))⟩
  | logical => cases hop
  | load haddress => cases haddress

end Expression

/-- The left operand of a logical operator decides if it has the truth value that decides. -/
theorem Meaning.Number.decides_iff {op : LogicalOp} {a : Number} :
    a.decides op = true ↔ a.isTrue = op.decisive := by
  cases op <;> cases h : a.isTrue <;> simp [Number.decides, LogicalOp.decisive, h]

/-- What is emitted around the operands of a logical operator: behind the left one and behind the right one
a jump to the place where the operator is decided. -/
structure Scope.Joins (op : LogicalOp) (u v w t : Scope) (decided last : Label) : Prop where
  right : (u.append [] [.branchIf op.decisive decided]).Emits v
  /-- The end if no operand decides. -/
  undecided : (v.append [] [.branchIf op.decisive decided, .constInt32 (1 - op.decidedValue),
    .branch last]).Binds decided w
  /-- The end if an operand decides. -/
  decided : (w.append [] [.constInt32 op.decidedValue]).Binds last t

namespace Scope.Joins

open Meaning.Point

variable {program : Module} {F : CompiledFunction} {op : LogicalOp} {u v w t : Scope}
  {decided last : Label} {f : Frame} {stack : List Value} {a : Number}

theorem extends_decided (h : Joins op u v w t decided last) (hM : t.assembler.method.Extends F.method) :
    (w.append [] [.constInt32 op.decidedValue]).assembler.method.Extends F.method :=
  h.decided.emits.extends hM

theorem extends_undecided (h : Joins op u v w t decided last)
    (hM : t.assembler.method.Extends F.method) : (v.append [] [.branchIf op.decisive decided,
      .constInt32 (1 - op.decidedValue), .branch last]).assembler.method.Extends F.method :=
  h.undecided.emits.extends
    ((emits_append _ _ (by simp [Instruction.isPlain])).extends (h.extends_decided hM))

theorem extends_right (h : Joins op u v w t decided last) (hM : t.assembler.method.Extends F.method) :
    v.assembler.method.Extends F.method :=
  (emits_append _ _ (by simp [Instruction.isPlain])).extends (h.extends_undecided hM)

theorem extends_left (h : Joins op u v w t decided last) (hM : t.assembler.method.Extends F.method) :
    (u.append [] [.branchIf op.decisive decided]).assembler.method.Extends F.method :=
  h.right.extends (h.extends_right hM)

theorem target (h : Joins op u v w t decided last) (hM : t.assembler.method.Extends F.method) :
    F.method.body.labels.offset? decided = some w.offset := by
  rw [h.undecided.offset]
  exact h.undecided.target
    ((emits_append _ _ (by simp [Instruction.isPlain])).extends (h.extends_decided hM))

theorem names_right (h : Joins op u v w t decided last) : v.names = u.names := h.right.names

theorem names_decided (h : Joins op u v w t decided last) : w.names = u.names := by
  rw [h.undecided.emits.names]
  exact h.names_right

/-- Where an operand has decided, its truth value is the result. -/
theorem leads_decided (h : Joins op u v w t decided last) (hM : t.assembler.method.Extends F.method)
    (ha : a.isTrue = op.decisive) : (w.point f stack).Leads program F
      (t.point f ((Number.ofBool a.isTrue).toValue :: stack)) := by
  have hvalue : (Number.ofBool a.isTrue).toValue = .int op.decidedValue.toInt64 := by
    rw [ha]
    cases op <;> rfl
  rw [h.decided.point, hvalue]
  refine leads_append_stack (h.extends_decided hM) fun x store hx => ?_
  rw [← hx]
  exact .cons rfl .constInt32 rfl .nil

/-- A left operand that decides leads to the end of the code. -/
theorem leads_left (h : Joins op u v w t decided last) (hM : t.assembler.method.Extends F.method)
    (ha : a.isTrue = op.decisive) : (u.point f (a.toValue :: stack)).Leads program F
      (t.point f ((Number.ofBool a.isTrue).toValue :: stack)) := by
  have hjump : (u.point f (a.toValue :: stack)).Leads program F
      ⟨u.names, f, if a.isTrue = op.decisive then w.offset else u.offset + 1, stack⟩ :=
    leads_branchIf (hasCode_append (h.extends_left hM)).head (h.target hM)
  rw [if_pos ha, ← h.names_decided] at hjump
  exact hjump.trans (h.leads_decided hM ha)

/-- A left operand that does not decide leads to the right one. -/
theorem leads_on (h : Joins op u v w t decided last) (hM : t.assembler.method.Extends F.method)
    (ha : a.isTrue ≠ op.decisive) : (u.point f (a.toValue :: stack)).Leads program F
      ((u.append [] [.branchIf op.decisive decided]).point f stack) := by
  have hjump : (u.point f (a.toValue :: stack)).Leads program F
      ⟨u.names, f, if a.isTrue = op.decisive then w.offset else u.offset + 1, stack⟩ :=
    leads_branchIf (hasCode_append (h.extends_left hM)).head (h.target hM)
  rw [if_neg ha] at hjump
  unfold point
  rw [offset_append]
  exact hjump

/-- The truth value of the right operand is the result, whether it decides or not. -/
theorem leads_right (h : Joins op u v w t decided last) (hM : t.assembler.method.Extends F.method) :
    (v.point f (a.toValue :: stack)).Leads program F
      (t.point f ((Number.ofBool a.isTrue).toValue :: stack)) := by
  have hcode := hasCode_append (h.extends_undecided hM)
  have hjump : (v.point f (a.toValue :: stack)).Leads program F
      ⟨v.names, f, if a.isTrue = op.decisive then w.offset else v.offset + 1, stack⟩ :=
    leads_branchIf hcode.head (h.target hM)
  by_cases ha : a.isTrue = op.decisive
  · rw [if_pos ha, h.names_right, ← h.names_decided] at hjump
    exact hjump.trans (h.leads_decided hM ha)
  · rw [if_neg ha] at hjump
    have hvalue : Value.int (1 - op.decidedValue).toInt64 = (Number.ofBool a.isTrue).toValue := by
      have hnot : a.isTrue = !op.decisive := Bool.eq_not.2 ha
      rw [hnot]
      cases op <;> rfl
    have hconst : Leads program F ⟨v.names, f, v.offset + 1, stack⟩
        ⟨v.names, f, v.offset + 1 + 1, (Number.ofBool a.isTrue).toValue :: stack⟩ := by
      have hone : F.method.HasCode (v.offset + 1) ([.constInt32 (1 - op.decidedValue)] ++ _) :=
        hcode.tail
      rw [← hvalue]
      refine leads_code hone.left rfl fun x hx => ?_
      exact ⟨_, fun store => .cons rfl .constInt32 rfl .nil, hx.holds.move _ _, congrArg _ hx.stack⟩
    have hend : Leads program F
        ⟨v.names, f, v.offset + 1 + 1, (Number.ofBool a.isTrue).toValue :: stack⟩
        ⟨v.names, f, t.offset, (Number.ofBool a.isTrue).toValue :: stack⟩ :=
      leads_branch hcode.tail.tail.head (h.decided.stands hM)
    have hnames : t.names = v.names := by
      rw [h.decided.emits.names, h.names_right]
      exact h.names_decided
    unfold point
    rw [hnames]
    exact (hjump.trans hconst).trans hend

end Scope.Joins

namespace Expression

variable {program : Module} {fs : List CompiledFunction} {F : CompiledFunction} {f g h : Frame}
  {span span' : Span} {name : String} {e left right operand : Expression} {es : List Expression}
  {a b c d n : Number} {ns : List Number} {result : Option Number}

theorem Realised.decided {op : LogicalOp} (hl : left.Realised program F f (some a) g)
    (hop : a.decides op = true) :
    (Expression.binary span (.logical op) left right).Realised program F f
      (some (.ofBool a.isTrue)) g := by
  intro s t type hcode hs hM stack x hx
  cases hcode with
  | @logical _ u v w _ _ _ _ _ _ _ hlcode _ hrcode _ hw ht =>
    have hjoins : Scope.Joins op u v w t _ _ := ⟨hrcode.emits, hw, ht⟩
    have huM := (Scope.emits_append _ _ (by simp [Instruction.isPlain])).extends
      (hjoins.extends_left hM)
    obtain ⟨-, hcomes⟩ := hl hlcode (hs.emits (Scope.emits_reserve s 2)) huM stack x hx
    exact ⟨.inl rfl, hcomes.leads (hjoins.leads_left hM (Number.decides_iff.1 hop))⟩
  | binary _ _ hcode => cases hcode
  | load haddress => cases haddress

theorem Realised.undecided {op : LogicalOp} (hl : left.Realised program F f (some a) g)
    (hop : a.decides op = false) (hr : right.Realised program F g (some b) h) :
    (Expression.binary span (.logical op) left right).Realised program F f
      (some (.ofBool b.isTrue)) h := by
  intro s t type hcode hs hM stack x hx
  cases hcode with
  | @logical _ u v w _ _ _ _ _ _ _ hlcode _ hrcode _ hw ht =>
    have hjoins : Scope.Joins op u v w t _ _ := ⟨hrcode.emits, hw, ht⟩
    have hjump : u.Emits (u.append [] [.branchIf op.decisive s.nextLabel]) :=
      Scope.emits_append _ _ (by simp [Instruction.isPlain])
    have huM := hjump.extends (hjoins.extends_left hM)
    obtain ⟨-, hcomes⟩ := hl hlcode (hs.emits (Scope.emits_reserve s 2)) huM stack x hx
    have hne : a.isTrue ≠ op.decisive := fun h => by
      rw [Number.decides_iff.2 h] at hop
      cases hop
    obtain ⟨y, hxy, hy⟩ := hcomes.leads (hjoins.leads_on hM hne)
    have hus := (hs.emits (Scope.emits_reserve s 2)).emits (hlcode.emits.trans hjump)
    obtain ⟨-, hcomes⟩ := hr hrcode hus (hjoins.extends_right hM) stack y hy
    exact ⟨.inl rfl, hxy.comes (hcomes.leads (hjoins.leads_right hM))⟩
  | binary _ _ hcode => cases hcode
  | load haddress => cases haddress

theorem Realised.assign (hvalue : e.Realised program F f (some a) g)
    (hwrite : g.write? name a = some (b, h)) :
    (assignment span none (.identifier span' name) e).Realised program F f (some b) h := by
  intro s t type hcode hs hM stack x hx
  cases hcode with
  | assign hv hcode hconv =>
    have huM := (Scope.emits_append _ _ (List.forall_mem_append.2
      ⟨isPlain_coercion, Variable.isPlain_store _⟩)).extends hM
    obtain ⟨hunder, y, hxy, hy⟩ := hvalue hcode hs huM stack x hx
    obtain ⟨hresult, hcomes⟩ := Scope.comes_assign (hs.emits hcode.emits)
      ((hcode.emits.findVariable? name).trans hv) hunder hM hwrite hy
    exact ⟨hresult, hxy.comes hcomes⟩
  | assignThrough haddress | load haddress => cases haddress

theorem Realised.update {op : BinaryOp} (haddressable : F.method.Addressable)
    (hread : f.read? name = some a) (hvalue : e.Realised program F f (some b) g)
    (hop : Number.combine? op a b = some c) (hwrite : g.write? name c = some (d, h)) :
    (assignment span (some op) (.identifier span' name) e).Realised program F f (some d) h := by
  intro s t type hcode hs hM stack x hx
  cases hcode with
  | @update _ u _ _ _ _ v _ valueType type ts code hv hvcode hcode hconv =>
    have hload := Scope.emits_append s [] v.isPlain_load
    have hassign : ∀ i ∈ coercion type v.type ++ [.dup, v.store], i.isPlain = true :=
      List.forall_mem_append.2 ⟨isPlain_coercion, v.isPlain_store⟩
    have hsplit : u.append ts (code ++ coercion type v.type ++ [.dup, v.store]) =
        (u.append ts code).append [] (coercion type v.type ++ [.dup, v.store]) := by
      rw [Scope.append_append, List.append_nil, List.append_assoc]
    rw [hsplit] at hM ⊢
    have hcM := (Scope.emits_append _ _ hassign).extends hM
    have huM := (Scope.emits_append _ _ hcode.isPlain).extends hcM
    -- The variable is read before the right operand is evaluated.
    have htype := (hx.holds.read hread (s.findVariable?_eq name ▸ hv)).1
    have hloads : x.Comes program F ((s.append [] [v.load]).point f (a.toValue :: stack)) :=
      Scope.leads_load hv hread (hvcode.emits.extends huM) x hx
    obtain ⟨y, hxy, hy⟩ := hloads
    obtain ⟨hunder, hcomes⟩ := hvalue hvcode (hs.emits hload) huM _ y hy
    have hus := hs.emits (hload.trans hvcode.emits)
    obtain ⟨z, hyz, hz⟩ := hcomes.leads (Scope.leads_operator hcode hus haddressable hcM (.inl htype)
      hunder hop)
    have hcs := hus.emits (Scope.emits_append _ ts hcode.isPlain)
    have hfind : (u.append ts code).findVariable? name = some v :=
      ((hload.trans hvcode.emits).findVariable? name).trans hv
    obtain ⟨hresult, hcomes⟩ := Scope.comes_assign hcs hfind
      (Number.Under.binary hcode (.inl htype) hunder hop) hM hwrite hz
    exact ⟨hresult, hxy.comes (hyz.comes hcomes)⟩
  | updateThrough haddress | load haddress => cases haddress

theorem ListRealised.nil : ListRealised program F f [] [] f := by
  intro s t types hcode hs hM htypes
  cases hcode with
  | noArguments => exact ⟨rfl, fun stack => .refl _⟩

theorem ListRealised.cons (he : e.Realised program F f (some n) g)
    (hes : ListRealised program F g es ns h) : ListRealised program F f (e :: es) (n :: ns) h := by
  intro s t types hcode hs hM htypes
  cases hcode with
  | @argument _ u _ _ _ type parameter types hcode hconv hrest =>
    obtain ⟨⟨w, rfl⟩, hrestTypes⟩ := List.forall_mem_cons.1 htypes
    have hcoercion : u.Emits (u.append [] (coercion type w.type)) :=
      Scope.emits_append _ _ isPlain_coercion
    have hcM := hrest.emits.extends hM
    have huM := hcoercion.extends hcM
    obtain ⟨hlength, hleads⟩ := hes hrest (hs.emits (hcode.emits.trans hcoercion)) hM
      hrestTypes
    refine ⟨congrArg Nat.succ hlength, fun stack x hx => ?_⟩
    obtain ⟨hunder, hcomes⟩ := he hcode hs huM stack x hx
    have hpassed := (hcomes.leads (Scope.leads_coercion hunder w hcM)).leads
      (hleads ((n.convert w).toValue :: stack))
    rw [List.zipWith_cons_cons, List.reverse_cons, List.append_assoc, CType.pass_type]
    exact hpassed

end Expression

/-- The types that calls are checked against are those of the parameters. -/
theorem CompiledFunction.parameters_getD (F : CompiledFunction) :
    F.signature.parameters.getD [] = F.unit.parameterList.map (·.type) := by
  rw [(FunctionUnit.signature_eq_ok F.declared).2.2.1]
  unfold FunctionUnit.parameterTypes FunctionUnit.parameterList
  cases F.unit.parameters <;> rfl

namespace Linked

variable {program : Module} {fs : List CompiledFunction} {F G : CompiledFunction} {s : Scope}
  {name : String} {u : FunctionUnit} {signature : FunctionSignature}

/-- A name stands for the function that the language takes it for. -/
theorem callee (h : Linked program fs) (hF : F ∈ fs) (hs : s.Sound F)
    (hfind : s.findFunction? name = some signature)
    (hu : (fs.map (·.unit)).find? (fun u => u.name == name) = some u) :
    ∃ G ∈ fs, G.signature = signature ∧ G.unit = u := by
  have hnamed : ∃ G ∈ fs, G.signature = signature ∧ G.unit.name = name := by
    unfold Scope.findFunction? at hfind
    rw [hs.signature, hs.functions] at hfind
    split at hfind
    · rename_i hself
      cases hfind
      exact ⟨F, hF, rfl, F.signature_name ▸ beq_iff_eq.1 hself⟩
    · obtain ⟨e, he, rfl⟩ := Option.map_eq_some_iff.1 hfind
      have hmem := List.mem_reverse.1 (List.mem_of_find?_eq_some he)
      obtain ⟨G, hG, hsignature⟩ := h.known F hF e hmem
      refine ⟨G, hG, hsignature, ?_⟩
      rw [← G.signature_name, hsignature]
      simpa using List.find?_some he
  obtain ⟨G, hG, hsignature, hname⟩ := hnamed
  obtain ⟨K, hK, rfl⟩ := List.mem_map.1 (List.mem_of_find?_eq_some hu)
  have hKname : K.unit.name = name := by simpa using List.find?_some hu
  exact ⟨G, hG, hsignature, by rw [List.inj_on_of_nodup_map h.nodup hG hK (hname.trans hKname.symm)]⟩

end Linked

namespace Expression

variable {program : Module} {fs : List CompiledFunction} {F : CompiledFunction} {f g : Frame}
  {span span' : Span} {name : String} {es : List Expression} {ns : List Number}
  {result : Option Number} {u : FunctionUnit}

theorem Realised.call (hlinked : Linked program fs) (hF : F ∈ fs)
    (hu : (fs.map (·.unit)).find? (fun u => u.name == name) = some u)
    (harguments : ListRealised program F f es ns g)
    (hcall : ∀ G ∈ fs, G.unit = u → G.Realised program ns result) :
    (Expression.call span (.identifier span' name) es).Realised program F f result g := by
  intro s t type hcode hs hM stack x hx
  cases hcode with
  | @call _ v _ _ _ _ signature hfind hcount hcode =>
    obtain ⟨G, hG, rfl, hGu⟩ := hlinked.callee hF hs hfind hu
    obtain ⟨hanswers, hresult⟩ := hcall G hG hGu
    have hvM := (Scope.emits_append _ _ (by simp [Instruction.isPlain])).extends hM
    have htypes := G.parameters_getD
    obtain ⟨hlength, hleads⟩ := harguments hcode hs hvM (by
      rw [htypes]
      exact List.forall_mem_map.2 fun p hp => hlinked.parameters G hG p hp)
    obtain ⟨y, hxy, hy⟩ := hleads stack x hx
    have hreached := hy.stack
    rw [htypes] at hlength hreached
    have hi : y.instruction? = some (.call G.signature.method) := by
      rw [Activation.instruction?, hy.holds.method, hy.pc]
      exact (Scope.hasCode_append hM).head
    have hm : program.findMethod? G.signature.method.name = some G.method := by
      rw [G.ref_name]
      exact hlinked.found G hG
    have hargs : ((G.unit.parameterList.map (·.type)).zipWith CType.pass ns).length =
        G.method.parameters.length := by
      rw [G.parameters_length, htypes, List.length_zipWith, hlength, Nat.min_self]
    have hcalled := Activation.Reaches.call hi hm G.code.handlers hargs hreached hanswers
    refine ⟨?_, hxy.comes ⟨_, hcalled, hy.holds.move _ _, ?_, ?_⟩⟩
    · have hreturns := (FunctionUnit.signature_eq_ok G.declared).2.1
      rw [hreturns]
      cases result with
      | some n => exact .inl hresult
      | none => exact ⟨hresult, Scope.isTerminated_append rfl rfl⟩
    · show y.pc + 1 = (v.append [] [.call G.signature.method]).offset
      rw [Scope.offset_append, hy.pc]
      rfl
    · rfl
  | load haddress => cases haddress

end Expression

end ManagedC
