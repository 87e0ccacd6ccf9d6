import ManagedC.Proofs.Meaning.Values
import ManagedC.Proofs.Returns.Code

/-!
# Statements do what the language says

One lemma for each rule of the language about statements, as for expressions. What comes of the code of a
statement depends on the way in which the statement is left (`Activation.Ends`): control is at the end of
the code, at a label of the innermost loop, or the call is at its return.
-/

namespace ManagedC

open Meaning

/-! ## Tests, effects and declarations -/

/-- The code of a test leads to one place if the test is passed and to another if it is not. -/
inductive Expression.Decides (F : CompiledFunction) (s : Scope) :
    Option Expression → (yes no : Nat) → Prop where
  | none {no : Nat} : Decides F s none s.offset no
  /-- The jump is made if the test is not passed. -/
  | failing {u : Scope} {e : Expression} {type : CType} {label : Label} {no : Nat} :
    Emission.Code s (.value e type) u →
    (u.append [] [.branchIf false label]).assembler.method.Extends F.method →
    F.method.body.labels.offset? label = some no → Decides F s (some e) (u.offset + 1) no
  /-- The jump is made if the test is passed. -/
  | passing {u : Scope} {e : Expression} {type : CType} {label : Label} {yes : Nat} :
    Emission.Code s (.value e type) u →
    (u.append [] [.branchIf true label]).assembler.method.Extends F.method →
    F.method.body.labels.offset? label = some yes → Decides F s (some e) yes (u.offset + 1)

namespace Expression

variable {program : Module} {fs : List CompiledFunction} {F : CompiledFunction} {f g h : Frame}
  {e : Expression} {n : Number} {result : Option Number} {passed : Bool} {s t : Scope}
  {stack : List Value} {x : Activation} {label : Label} {target yes no : Nat}

/-- A test, if there is one, is passed or not. -/
def TestRealised (program : Module) (F : CompiledFunction) (f : Frame) (e : Option Expression)
    (passed : Bool) (g : Frame) : Prop :=
  match e with
  | none => passed = true ∧ g = f
  | some e => ∃ n, n.isTrue = passed ∧ e.Realised program F f (some n) g

/-- Wherever an expression is compiled for its effect, its code leaves nothing on the stack. -/
def EffectRealised (program : Module) (F : CompiledFunction) (f : Frame) (e : Option Expression)
    (g : Frame) : Prop :=
  ∀ {s t : Scope}, EffectCode s e t → s.Sound F → t.assembler.method.Extends F.method →
    ∀ (stack : List Value) (x : Activation), x.At F (s.point f stack) →
    (s.assembler.isTerminated = false → t.assembler.isTerminated = false) ∧
      x.Comes program F (t.point g stack)

/-- The code of a test is one that leads to two places. -/
theorem TestCode.decides {e : Option Expression} (h : TestCode s e label t)
    (hM : t.assembler.method.Extends F.method)
    (ht : F.method.body.labels.offset? label = Option.some target) :
    Decides F s e t.offset target := by
  cases h with
  | none => exact .none
  | some hcode =>
    rw [Scope.offset_append]
    exact .failing hcode hM ht

/-- A jump on the value of an expression. -/
theorem Realised.jumps {u : Scope} {type : CType} {condition : Bool}
    (he : e.Realised program F f (some n) g) (hcode : Emission.Code s (.value e type) u)
    (hs : s.Sound F) (hM : (u.append [] [.branchIf condition label]).assembler.method.Extends F.method)
    (ht : F.method.body.labels.offset? label = some target) (hx : x.At F (s.point f stack)) :
    x.Comes program F
      ⟨s.names, g, if n.isTrue = condition then target else u.offset + 1, stack⟩ := by
  have huM := (Scope.emits_append _ _ (by simp [Instruction.isPlain])).extends hM
  obtain ⟨-, hcomes⟩ := he hcode hs huM stack x hx
  rw [← hcode.emits.names]
  exact hcomes.leads (Point.leads_branchIf (Scope.hasCode_append hM).head ht)

/-- A test leads to the place for its outcome. -/
theorem TestRealised.comes {e : Option Expression} (h : TestRealised program F f e passed g)
    (hd : Decides F s e yes no) (hs : s.Sound F) (hx : x.At F (s.point f stack)) :
    x.Comes program F ⟨s.names, g, if passed then yes else no, stack⟩ := by
  cases hd with
  | none =>
    obtain ⟨rfl, rfl⟩ := h
    exact ⟨x, .refl x, hx⟩
  | failing hcode hM ht =>
    obtain ⟨n, rfl, he⟩ := h
    have hcomes := he.jumps hcode hs hM ht hx
    cases hn : n.isTrue <;> simpa [hn] using hcomes
  | passing hcode hM ht =>
    obtain ⟨n, rfl, he⟩ := h
    have hcomes := he.jumps hcode hs hM ht hx
    cases hn : n.isTrue <;> simpa [hn] using hcomes

theorem EffectRealised.none : EffectRealised program F f none f := by
  intro s t hcode hs hM stack x hx
  cases hcode with
  | none => exact ⟨id, x, .refl x, hx⟩

/-- The value of an expression is dropped, if it has one. -/
theorem Realised.effect (he : e.Realised program F f result g) :
    EffectRealised program F f (some e) g := by
  intro s t hcode hs hM stack x hx
  cases hcode with
  | @some u _ type hcode =>
    have hpop : ∀ i ∈ (if type.isVoid then [] else [Instruction.pop]), i.isPlain = true := by
      split <;> simp [Instruction.isPlain]
    obtain ⟨hleaves, hcomes⟩ := he hcode hs ((Scope.emits_append _ _ hpop).extends hM) stack x hx
    cases result with
    | none =>
      obtain ⟨hvoid, hopen⟩ := hleaves
      rw [hvoid, if_pos rfl, Scope.append_nil]
      exact ⟨fun _ => hopen, hcomes⟩
    | some n =>
      have hvoid := hleaves.isVoid
      rw [hvoid, if_neg Bool.false_ne_true] at hM ⊢
      exact ⟨fun _ => Scope.isTerminated_append rfl rfl, hcomes.leads
        (Scope.leads_append_stack hM fun y store hy => .cons rfl (.pop hy) rfl .nil)⟩

end Expression

namespace LocalDeclaration

variable {program : Module} {fs : List CompiledFunction} {F : CompiledFunction} {f g h : Frame}
  {e : Expression} {n : Number} {s t : Scope} {d : LocalDeclaration} {ds : List LocalDeclaration}
  {w : Width}

/-- Wherever declarations are compiled, the new variables are kept under their names. -/
def ListRealised (program : Module) (F : CompiledFunction) (f : Frame) (ds : List LocalDeclaration)
    (g : Frame) : Prop :=
  ∀ {s t : Scope}, ListCode s ds t → s.Sound F → t.assembler.method.Extends F.method →
    ∀ (stack : List Value) (x : Activation), x.At F (s.point f stack) →
    t.Sound F ∧ s.names <:+ t.names ∧ x.Comes program F (t.point g stack)

/-- The method has a slot for every variable that is declared. -/
theorem locals_lt {name : String} {type : CType} {target : TargetType}
    (haddressable : F.method.Addressable)
    (hM : (s.declareVariable name type target).assembler.method.Extends F.method) :
    s.assembler.method.locals.size < 2 ^ 16 := by
  have hsize : (s.declareVariable name type target).assembler.method.locals.size =
      s.assembler.method.locals.size + 1 := Array.size_push _
  have hle := hM.locals_le
  have hlimit := haddressable.locals
  omega

theorem ListRealised.nil : ListRealised program F f [] f := by
  intro s t hcode hs hM stack x hx
  cases hcode with
  | nil => exact ⟨hs, List.suffix_rfl, x, .refl x, hx⟩

/-- A variable is declared, and others after it. -/
theorem ListRealised.plain (haddressable : F.method.Addressable) (hd : d.initializer = none)
    (hw : Width.of? d.type = some w) (hds : ListRealised program F (⟨d.name, w, none⟩ :: f) ds g) :
    ListRealised program F f (d :: ds) g := by
  intro s t hcode hs hM stack x hx
  rw [Width.of?_eq_some] at hw
  cases hcode with
  | cons hcode hrest =>
    cases hcode with
    | plain _ _ htarget =>
      rw [hw, Width.target_type] at htarget
      cases htarget
      rw [hw] at hrest
      have hdM := hrest.grows.extends hM
      have hlt := locals_lt haddressable hdM
      have hdeclared : x.At F ((s.declareVariable d.name w.type w.target).point
          (⟨d.name, w, none⟩ :: f) stack) := ⟨hx.holds.declare hdM hlt, hx.pc, hx.stack⟩
      obtain ⟨hsound, hnames, hcomes⟩ := hds hrest (hs.declareVariable hlt _ _ _) hM stack x hdeclared
      rw [Scope.names_declareVariable] at hnames
      exact ⟨hsound, (List.suffix_cons _ _).trans hnames, hcomes⟩
    | initialized hi => simp [hd] at hi

/-- A variable is declared with an initial value, and others after it. -/
theorem ListRealised.initialized (haddressable : F.method.Addressable) (hd : d.initializer = some e)
    (hw : Width.of? d.type = some w) (he : e.Realised program F f (some n) g)
    (hds : ListRealised program F (Cell.store ⟨d.name, w, none⟩ n :: g) ds h) :
    ListRealised program F f (d :: ds) h := by
  intro s t hcode hs hM stack x hx
  rw [Width.of?_eq_some] at hw
  cases hcode with
  | cons hcode hrest =>
    cases hcode with
    | plain hi => simp [hd] at hi
    | @initialized u _ _ type _ hi hcode _ _ htarget =>
      obtain rfl : e = _ := Option.some.inj (hd.symm.trans hi)
      rw [hw, Width.target_type] at htarget
      cases htarget
      rw [hw] at hrest
      let v : Variable := ⟨.local u.nextSlot, w.type⟩
      let declared := u.declareVariable d.name w.type w.target
      have hsplit : declared.append [] (coercion type w.type ++ [.storeLocal u.nextSlot]) =
          (declared.append [] (coercion type w.type)).append [] [v.store] := by
        rw [Scope.append_append]
        rfl
      have hcoercion : declared.Emits (declared.append [] (coercion type w.type)) :=
        Scope.emits_append _ _ isPlain_coercion
      have hstore : (declared.append [] (coercion type w.type)).Emits
          ((declared.append [] (coercion type w.type)).append [] [v.store]) :=
        Scope.emits_append _ _ (by simp [v, Variable.store, Instruction.isPlain])
      rw [show (u.declareVariable d.name w.type w.target).append [] _ = _ from hsplit] at hrest
      have hsM := hrest.grows.extends hM
      have hcM := hstore.extends hsM
      have hdM : declared.assembler.method.Extends F.method := hcoercion.extends hcM
      have huM := (u.grows_declareVariable d.name w.type w.target).extends hdM
      have hlt := locals_lt haddressable hdM
      have hus := hs.emits hcode.emits
      have hds' : declared.Sound F := hus.declareVariable hlt _ _ _
      -- The initial value is computed before there is the variable.
      obtain ⟨hunder, y, hxy, hy⟩ := he hcode hs huM stack x hx
      have hdeclared : y.At F (declared.point (⟨d.name, w, none⟩ :: g) (n.toValue :: stack)) :=
        ⟨hy.holds.declare hdM hlt, hy.pc, hy.stack⟩
      have hnames : (declared.append [] (coercion type w.type)).names = (d.name, v) :: u.names := by
        rw [hcoercion.names]
        exact Scope.names_declareVariable ..
      have hfind : (declared.append [] (coercion type w.type)).findVariable? d.name = some v := by
        rw [Scope.findVariable?_eq, hnames]
        exact List.lookup_cons_self
      have hwrite : Frame.write? (⟨d.name, w, none⟩ :: g) d.name n =
          some (n.convert w, Cell.store ⟨d.name, w, none⟩ n :: g) := by
        unfold Frame.write?
        exact if_pos (beq_self_eq_true _)
      obtain ⟨z, hyz, hz⟩ := (Scope.leads_coercion hunder w hcM y hdeclared).leads
        (Scope.leads_store (hds'.emits hcoercion) hfind hwrite hsM)
      obtain ⟨hsound, hsuffix, hcomes⟩ := hds hrest ((hds'.emits hcoercion).emits hstore) hM stack z hz
      refine ⟨hsound, ?_, hxy.comes (hyz.comes hcomes)⟩
      rw [hstore.names, hnames, hcode.emits.names] at hsuffix
      exact (List.suffix_cons _ _).trans hsuffix

end LocalDeclaration

/-! ## Code of statements -/

/-- The labels of a loop are known inside it only. -/
theorem Scope.Emits.closeLoop {s t : Scope} {labels : LoopLabels} (h : (s.openLoop labels).Emits t) :
    s.Emits t.closeLoop := by
  refine ⟨?_, h.method, h.regions⟩
  rw [h.eq]
  rfl

namespace Body.Code

variable {s t : Scope} {part : Body} {parts : List Body}

/-- The code of bodies one after the other is that of the first and that of the others. -/
theorem split (h : Body.Code s (part :: parts) t) :
    ∃ u, Body.Code s [part] u ∧ Body.Code u parts t := by
  cases parts with
  | nil => exact ⟨t, h, .nil⟩
  | cons next parts =>
    cases h with
    | cons hpart hparts => exact ⟨_, hpart, hparts⟩

/-- A statement declares no names that are known behind it. -/
theorem emits {bodies : List Body} (h : Body.Code s bodies t) :
    ∀ body, bodies = [body] → body.isStatement = true → s.Emits t := by
  induction h with
  | nil => exact nofun
  | cons => exact nofun
  | block hb => exact fun _ _ _ => hb.grows.closeBlock
  | expression he => exact fun _ _ _ => he.emits
  | declare =>
    rintro _ ⟨⟩ hbody
    cases hbody
  | conditional hc _ hm ih =>
    rintro _ ⟨⟩ hbody
    exact (Scope.emits_reserve _ _).trans (hc.emits.trans ((ih _ rfl hbody).trans hm.emits))
  | choice hc _ hm _ ht ihthen ihelse =>
    rintro _ ⟨⟩ hbody
    obtain ⟨hthen, helse⟩ := Bool.and_eq_true_iff.1 hbody
    refine (Scope.emits_reserve _ _).trans (hc.emits.trans ((ihthen _ rfl hthen).trans
      (((Scope.emits_reserve _ 1).trans ((Scope.emits_append _ _ ?_).trans hm.emits)).trans
        ((ihelse _ rfl helse).trans ht.emits))))
    split <;> simp [Instruction.isPlain]
  | whileLoop ha hc _ ht ih =>
    rintro _ ⟨⟩ hbody
    exact (Scope.emits_reserve _ _).trans (ha.emits.trans (hc.emits.trans
      ((ih _ rfl hbody).closeLoop.trans ((Scope.emits_append _ _ (by simp [Instruction.isPlain])).trans
        ht.emits))))
  | doWhileLoop ha _ hw hx _ ht ih =>
    rintro _ ⟨⟩ hbody
    exact (Scope.emits_reserve _ _).trans (ha.emits.trans ((ih _ rfl hbody).closeLoop.trans
      (hw.emits.trans (hx.emits.trans ((Scope.emits_append _ _ (by simp [Instruction.isPlain])).trans
        ht.emits)))))
  | forLoop hstart ha hc hbody hw hu ht =>
    rintro _ ⟨⟩ -
    refine Scope.Grows.closeBlock (hstart.grows.trans ((Scope.emits_reserve _ _).grows.trans
      (ha.emits.grows.trans (hc.emits.grows.trans (hbody.grows.closeLoop.trans
        (hw.emits.grows.trans (hu.emits.grows.trans ((Scope.emits_append _ _ ?_).grows.trans
          ht.emits.grows))))))))
    simp [Instruction.isPlain]
  | exitLoop | nextRound | ret =>
    exact fun _ _ _ => Scope.emits_append _ _ (by simp [Instruction.isPlain])
  | retValue _ he =>
    exact fun _ _ _ => he.emits.trans (Scope.emits_append _ _ (List.forall_mem_append.2
      ⟨isPlain_coercion, by simp [Instruction.isPlain]⟩))
  | empty => exact fun _ _ _ => .refl _

end Body.Code

/-! ## How statements are left -/

/-- What comes of a call when a statement is left in a way. Behind the statement is some place, and there
are some loops around it. -/
inductive Activation.Ends (program : Module) (F : CompiledFunction) (x : Activation)
    (loops : List LoopLabels) (behind : Nat) (names : Names) (g : Frame) (stack : List Value) :
    Flow → Prop where
  /-- Control is behind the statement. -/
  | normal : x.Comes program F ⟨names, g, behind, stack⟩ →
    Ends program F x loops behind names g stack .normal
  /-- Control is at the end of the innermost loop. -/
  | exitLoop {labels : LoopLabels} {target : Nat} : loops.head? = some labels →
    F.method.body.labels.offset? labels.exit = some target →
    x.Comes program F ⟨names, g, target, stack⟩ →
    Ends program F x loops behind names g stack .exitLoop
  /-- Control is at the next round of the innermost loop. -/
  | nextRound {labels : LoopLabels} {target : Nat} : loops.head? = some labels →
    F.method.body.labels.offset? labels.next = some target →
    x.Comes program F ⟨names, g, target, stack⟩ →
    Ends program F x loops behind names g stack .nextRound
  /-- The call returns the result of the function. -/
  | ret {value : Option Number} : (∀ result, (Flow.ret value).result? F.unit = some result →
      ∃ b : Activation, x.Reaches program b ∧ b.Returning (result.map Number.toValue)) →
    Ends program F x loops behind names g stack (.ret value)

namespace Activation.Ends

variable {program : Module} {F : CompiledFunction} {x y : Activation} {loops loops' : List LoopLabels}
  {behind behind' : Nat} {names outer : Names} {g inner : Frame} {stack : List Value} {flow : Flow}

/-- A call that comes to a statement is left with it. -/
theorem after (h : y.Ends program F loops behind names g stack flow) (hxy : x.Reaches program y) :
    x.Ends program F loops behind names g stack flow := by
  cases h with
  | normal h => exact .normal (hxy.comes h)
  | exitLoop hl ht h => exact .exitLoop hl ht (hxy.comes h)
  | nextRound hl ht h => exact .nextRound hl ht (hxy.comes h)
  | ret h =>
    refine .ret fun result hresult => ?_
    obtain ⟨b, hyb, hb⟩ := h result hresult
    exact ⟨b, hxy.trans hyb, hb⟩

/-- From behind a part control goes on to behind the whole. -/
theorem leads (h : x.Ends program F loops behind names g stack flow)
    (hnormal : flow = .normal →
      Point.Leads program F ⟨names, g, behind, stack⟩ ⟨names, g, behind', stack⟩) :
    x.Ends program F loops behind' names g stack flow := by
  cases h with
  | normal h => exact .normal (h.leads (hnormal rfl))
  | exitLoop hl ht h => exact .exitLoop hl ht h
  | nextRound hl ht h => exact .nextRound hl ht h
  | ret h => exact .ret h

/-- The latest variables can be forgotten. -/
theorem drop (h : x.Ends program F loops behind names (inner ++ g) stack flow)
    (hnames : outer <:+ names) (hlength : g.length = outer.length) :
    x.Ends program F loops behind outer g stack flow := by
  cases h with
  | normal h => exact .normal (h.drop hnames hlength)
  | exitLoop hl ht h => exact .exitLoop hl ht (h.drop hnames hlength)
  | nextRound hl ht h => exact .nextRound hl ht (h.drop hnames hlength)
  | ret h => exact .ret h

/-- A return is the same wherever the statement is. -/
theorem of_ret {value : Option Number} (h : x.Ends program F loops behind names g stack (.ret value)) :
    x.Ends program F loops' behind' names g stack (.ret value) := by
  cases h with
  | ret h => exact .ret h

/-- What does not leave a loop is the same in all loops. -/
theorem of_nil (h : x.Ends program F [] behind names g stack flow) :
    x.Ends program F loops behind names g stack flow := by
  cases h with
  | normal h => exact .normal h
  | exitLoop hl | nextRound hl => cases hl
  | ret h => exact .ret h

end Activation.Ends

namespace Body

/-- Wherever a statement is compiled, its code does what the statement does. -/
def Realised (program : Module) (F : CompiledFunction) (f : Frame) (body : Body) (flow : Flow)
    (g : Frame) : Prop :=
  ∀ {s t : Scope}, Code s [body] t → s.Sound F → t.assembler.method.Extends F.method →
    s.assembler.isTerminated = false → ∀ (stack : List Value) (x : Activation),
    x.At F (s.point f stack) → (flow = .normal → t.assembler.isTerminated = false) ∧
      x.Ends program F s.loops t.offset s.names g stack flow

/-- Wherever the parts of a block are compiled, their code does what they do. -/
def ListRealised (program : Module) (F : CompiledFunction) (f : Frame) (parts : List Body)
    (flow : Flow) (g : Frame) : Prop :=
  ∀ {s t : Scope}, Code s parts t → s.Sound F → t.assembler.method.Extends F.method →
    s.assembler.isTerminated = false → ∀ (stack : List Value) (x : Activation),
    x.At F (s.point f stack) → (flow = .normal → t.assembler.isTerminated = false) ∧
      ∃ names, s.names <:+ names ∧ x.Ends program F s.loops t.offset names g stack flow

/-- Wherever the start of a loop is compiled, its code does what it does. -/
def StartRealised (program : Module) (F : CompiledFunction) (f : Frame) (start : Option Body)
    (g : Frame) : Prop :=
  ∀ {s t : Scope}, Code s start.toList t → s.Sound F → t.assembler.method.Extends F.method →
    ∀ (stack : List Value) (x : Activation), x.At F (s.point f stack) →
    t.Sound F ∧ s.names <:+ t.names ∧ x.Comes program F (t.point g stack)

variable {program : Module} {fs : List CompiledFunction} {F : CompiledFunction} {f g h inner : Frame}
  {e : Expression} {n : Number} {s t : Scope} {ds : List LocalDeclaration} {part body : Body}
  {parts : List Body} {flow : Flow} {location : Location} {thenBranch elseBranch : Body}
  {update : Option Expression} {stack : List Value} {x : Activation}

/-! ## Blocks and choices -/

theorem Realised.expression (he : Expression.EffectRealised program F f (some e) g) :
    (Body.expression e).Realised program F f .normal g := by
  intro s t hcode hs hM hopen stack x hx
  cases hcode with
  | expression hcode =>
    obtain ⟨hterm, hcomes⟩ := he hcode hs hM stack x hx
    have hnames := hcode.emits.names
    exact ⟨fun _ => hterm hopen, .normal (hnames ▸ hcomes)⟩

theorem Realised.empty : Body.empty.Realised program F f .normal f := by
  intro s t hcode hs hM hopen stack x hx
  cases hcode with
  | empty => exact ⟨fun _ => hopen, .normal ⟨x, .refl x, hx⟩⟩

theorem ListRealised.nil : ListRealised program F f [] .normal f := by
  intro s t hcode hs hM hopen stack x hx
  cases hcode with
  | nil => exact ⟨fun _ => hopen, s.names, List.suffix_rfl, .normal ⟨x, .refl x, hx⟩⟩

theorem ListRealised.declares (hds : LocalDeclaration.ListRealised program F f ds g)
    (hparts : ListRealised program F g parts flow h) :
    ListRealised program F f (.declare ds :: parts) flow h := by
  intro s t hcode hs hM hopen stack x hx
  obtain ⟨u, hcode, hrest⟩ := hcode.split
  cases hcode with
  | declare hcode =>
    obtain ⟨hus, hsuffix, y, hxy, hy⟩ := hds hcode hs (hrest.grows.extends hM) stack x hx
    have hloops : u.loops = s.loops := hcode.grows.loops
    obtain ⟨hterm, names, hnames, hends⟩ := hparts hrest hus hM (hcode.isTerminated hopen) stack y hy
    exact ⟨hterm, names, hsuffix.trans hnames, hloops ▸ hends.after hxy⟩

theorem ListRealised.first (hpart : part.isStatement = true)
    (hrealised : part.Realised program F f .normal g)
    (hparts : ListRealised program F g parts flow h) :
    ListRealised program F f (part :: parts) flow h := by
  intro s t hcode hs hM hopen stack x hx
  obtain ⟨u, hcode, hrest⟩ := hcode.split
  have hemits := hcode.emits part rfl hpart
  obtain ⟨hterm, hends⟩ := hrealised hcode hs (hrest.grows.extends hM) hopen stack x hx
  cases hends with
  | normal hcomes =>
    rw [← hemits.names] at hcomes
    obtain ⟨y, hxy, hy⟩ := hcomes
    have hloops : u.loops = s.loops := hemits.grows.loops
    obtain ⟨hterm, names, hnames, hends⟩ :=
      hparts hrest (hs.emits hemits) hM (hterm rfl) stack y hy
    exact ⟨hterm, names, hemits.names ▸ hnames, hloops ▸ hends.after hxy⟩

theorem ListRealised.leaves (hrealised : part.Realised program F f flow g) (hflow : flow ≠ .normal) :
    ListRealised program F f (part :: parts) flow g := by
  intro s t hcode hs hM hopen stack x hx
  obtain ⟨u, hcode, hrest⟩ := hcode.split
  obtain ⟨-, hends⟩ := hrealised hcode hs (hrest.grows.extends hM) hopen stack x hx
  exact ⟨fun h => absurd h hflow, s.names, List.suffix_rfl,
    hends.leads fun h => absurd h hflow⟩

theorem Realised.block (hparts : ListRealised program F f parts flow (inner ++ g))
    (hlength : g.length = f.length) : (Body.block parts).Realised program F f flow g := by
  intro s t hcode hs hM hopen stack x hx
  cases hcode with
  | @block _ t _ hcode =>
    obtain ⟨hterm, names, hnames, hends⟩ := hparts hcode hs.openBlock hM hopen stack x hx
    exact ⟨hterm, hends.drop hnames (hlength.trans hx.holds.length)⟩

theorem Realised.chosen {condition : Expression} {elseBranch : Option Body}
    (htest : Expression.TestRealised program F f (some condition) true g)
    (hthen : thenBranch.Realised program F g flow h) :
    (Body.conditional condition thenBranch elseBranch).Realised program F f flow h := by
  intro s t hcode hs hM hopen stack x hx
  cases hcode with
  | @conditional _ u v _ _ _ hc hcode hm =>
    have hvM := hm.emits.extends hM
    have huM := hcode.grows.extends hvM
    have hrs := hs.emits (Scope.emits_reserve s 1)
    have hemits := hc.emits
    obtain ⟨y, hxy, hy⟩ := htest.comes (hc.decides huM (hm.target hM)) hrs hx
    rw [if_pos rfl, ← hemits.point] at hy
    obtain ⟨-, hends⟩ := hthen hcode (hrs.emits hemits) hvM (hc.isTerminated hopen) stack y hy
    rw [hemits.grows.loops, hemits.names, ← hm.offset] at hends
    exact ⟨fun _ => hm.isTerminated, hends.after hxy⟩
  | @choice _ u v w z _ _ _ _ hc hcode hm helse ht =>
    have hwM := helse.grows.extends (ht.emits.extends hM)
    have hjM := hm.emits.extends hwM
    have hvM : v.assembler.method.Extends F.method := by
      refine (Scope.emits_append _ _ ?_).extends hjM
      split <;> simp [Instruction.isPlain]
    have huM := hcode.grows.extends hvM
    have hrs := hs.emits (Scope.emits_reserve s 1)
    have hemits := hc.emits
    obtain ⟨y, hxy, hy⟩ := htest.comes (hc.decides huM (hm.target hwM)) hrs hx
    rw [if_pos rfl, ← hemits.point] at hy
    obtain ⟨hterm, hends⟩ := hthen hcode (hrs.emits hemits) hvM (hc.isTerminated hopen) stack y hy
    rw [hemits.grows.loops, hemits.names] at hends
    refine ⟨fun _ => ht.isTerminated, (hends.after hxy).leads fun hflow => ?_⟩
    -- Control comes to the end of the branch, so the jump over the alternative is there.
    rw [hterm hflow, if_neg Bool.false_ne_true] at hjM
    rw [ht.offset]
    exact Point.leads_branch (Scope.hasCode_append hjM).head (ht.target hM)

theorem Realised.otherwise {condition : Expression} (hstatement : thenBranch.isStatement = true)
    (htest : Expression.TestRealised program F f (some condition) false g)
    (helse : elseBranch.Realised program F g flow h) :
    (Body.conditional condition thenBranch (some elseBranch)).Realised program F f flow h := by
  intro s t hcode hs hM hopen stack x hx
  cases hcode with
  | @choice _ u v w z _ _ _ _ hc hcode hm hecode ht =>
    have hzM := ht.emits.extends hM
    have hwM := hecode.grows.extends hzM
    have hplain : ∀ i ∈ (if v.assembler.isTerminated then [] else [Instruction.branch v.nextLabel]),
        i.isPlain = true := by
      split <;> simp [Instruction.isPlain]
    have hvM := (Scope.emits_append _ _ hplain).extends (hm.emits.extends hwM)
    have huM := hcode.grows.extends hvM
    have hrs := hs.emits (Scope.emits_reserve s 1)
    have hemits : (s.reserve 1).Emits w := hc.emits.trans
      ((hcode.emits thenBranch rfl hstatement).trans ((Scope.emits_reserve v 1).trans
        ((Scope.emits_append _ _ hplain).trans hm.emits)))
    obtain ⟨y, hxy, hy⟩ := htest.comes (hc.decides huM (hm.target hwM)) hrs hx
    rw [if_neg Bool.false_ne_true, ← hm.offset, ← hemits.point] at hy
    obtain ⟨-, hends⟩ := helse hecode (hrs.emits hemits) hzM hm.isTerminated stack y hy
    rw [hemits.grows.loops, hemits.names, ← ht.offset] at hends
    exact ⟨fun _ => ht.isTerminated, hends.after hxy⟩

theorem Realised.skipped {condition : Expression}
    (htest : Expression.TestRealised program F f (some condition) false g) :
    (Body.conditional condition thenBranch none).Realised program F f .normal g := by
  intro s t hcode hs hM hopen stack x hx
  cases hcode with
  | @conditional _ u v _ _ _ hc hcode hm =>
    have huM := hcode.grows.extends (hm.emits.extends hM)
    have hrs := hs.emits (Scope.emits_reserve s 1)
    have hcomes := htest.comes (hc.decides huM (hm.target hM)) hrs hx
    rw [if_neg Bool.false_ne_true, ← hm.offset] at hcomes
    exact ⟨fun _ => hm.isTerminated, .normal hcomes⟩

/-! ## Jumps -/

theorem Realised.exitLoop : (Body.exitLoop location).Realised program F f .exitLoop f := by
  intro s t hcode hs hM hopen stack x hx
  cases hcode with
  | exitLoop hl =>
    have hi := (Scope.hasCode_append hM).head
    obtain ⟨target, ht⟩ := F.bound_target hi rfl
    exact ⟨nofun, .exitLoop (congrArg List.head? hl) ht (Point.leads_branch hi ht x hx)⟩

theorem Realised.nextRound : (Body.nextRound location).Realised program F f .nextRound f := by
  intro s t hcode hs hM hopen stack x hx
  cases hcode with
  | nextRound hl =>
    have hi := (Scope.hasCode_append hM).head
    obtain ⟨target, ht⟩ := F.bound_target hi rfl
    exact ⟨nofun, .nextRound (congrArg List.head? hl) ht (Point.leads_branch hi ht x hx)⟩

/-! ## Returns -/

/-- A call at a return, with the result of the function on its stack, returns it. -/
theorem Returning.of_at {p : Point} {result : Option Number} {rest : List Value} (hx : x.At F p)
    (hi : F.method.body.instructions[p.pc]? = some .ret)
    (hstack : p.stack = (result.map Number.toValue).toList ++ rest) (hgives : F.unit.Gives result) :
    x.Returning (result.map Number.toValue) := by
  have hreturn : x.method.returnType = F.returnType := by
    rw [hx.holds.method, F.code.returnType]
    exact (FunctionUnit.signature_eq_ok F.declared).2.2.2.2
  have hvoid := CType.target_eq_void F.target_returnType
  refine ⟨?_, ?_, hx.holds.pending, fun store => Activation.releasePins_eq_self fun q hq => .inl ?_⟩
  · rw [Activation.instruction?, hx.holds.method, hx.pc]
    exact hi
  · unfold Activation.Returns
    rw [hreturn, hx.stack, hstack]
    cases result with
    | none => exact .inl ⟨hvoid.2 hgives, rfl⟩
    | some n =>
      refine .inr ⟨fun h => ?_, n.toValue, rest, rfl, rfl⟩
      have hfalse := hvoid.1 h
      rw [show F.unit.returnType = n.width.type from hgives, Width.isVoid_type] at hfalse
      cases hfalse
  · have hmem := Array.mem_toList_iff.1 (List.of_mem_zip hq).1
    rw [hx.holds.method] at hmem
    exact F.code.unpinned _ hmem

theorem Realised.ret : (Body.ret none location).Realised program F f (.ret none) f := by
  intro s t hcode hs hM hopen stack x hx
  cases hcode with
  | ret hvoid =>
    refine ⟨nofun, .ret fun result hresult => ⟨x, .refl x, ?_⟩⟩
    have hgives : F.unit.returnType.isVoid = true := by
      rw [← (FunctionUnit.signature_eq_ok F.declared).2.1, ← hs.signature]
      exact hvoid
    unfold Flow.result? at hresult
    rw [if_pos hgives] at hresult
    cases hresult
    exact Returning.of_at hx (Scope.hasCode_append hM).head rfl hgives

theorem Realised.retValue (he : e.Realised program F f (some n) g) :
    (Body.ret (some e) location).Realised program F f (.ret (some n)) g := by
  intro s t hcode hs hM hopen stack x hx
  cases hcode with
  | @retValue _ u _ type _ hvoid hcode _ =>
    refine ⟨nofun, .ret fun result hresult => ?_⟩
    obtain ⟨w, hw, rfl⟩ := Option.map_eq_some_iff.1 hresult
    have hreturn : s.signature.returnType = w.type := by
      rw [hs.signature, (FunctionUnit.signature_eq_ok F.declared).2.1]
      exact Width.of?_eq_some.1 hw
    have hsplit : u.append [] (coercion type s.signature.returnType ++ [.ret]) =
        (u.append [] (coercion type w.type)).append [] [.ret] := by
      rw [Scope.append_append, hreturn]
      rfl
    rw [hsplit] at hM
    have hcM := (Scope.emits_single _ .ret rfl).extends hM
    have huM := (Scope.emits_append _ _ isPlain_coercion).extends hcM
    obtain ⟨hunder, hcomes⟩ := he hcode hs huM stack x hx
    obtain ⟨y, hxy, hy⟩ := hcomes.leads (Scope.leads_coercion hunder w hcM)
    exact ⟨y, hxy, Returning.of_at hy (Scope.hasCode_append hM).head rfl (Width.of?_eq_some.1 hw)⟩

end Body

end ManagedC
