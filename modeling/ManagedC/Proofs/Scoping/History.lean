import ManagedC.Proofs.Emit.Calls

/-!
# What happens to names and slots while code is emitted

A history of a scope lists, in order, the blocks that begin and end, the slots that are given to
parameters, local variables and temporaries, and the variables that are loaded or stored in for the names
in the source. All instructions with a slot are accounted for. Main statements: the code of every body has
a history that tells what the body says (`Body.Code.tells`), and so has every compiled function
(`CompiledFunction.history`).
-/

namespace ManagedC

/-- What happens to names in the source. -/
inductive NameEvent where
  /-- A block begins. -/
  | opened
  /-- The innermost block ends. -/
  | closed
  /-- A local variable is declared. -/
  | declared (name : String)
  /-- A variable is read or assigned to. -/
  | used (name : String)
  deriving DecidableEq

/-- What happens to names and slots while code is emitted. -/
inductive ScopeEvent where
  /-- A block begins. -/
  | opened
  /-- The innermost block ends. -/
  | closed
  /-- A slot is given to a parameter. -/
  | bound (name : Option String) (v : Variable) (target : TargetType)
  /-- A slot is given to a local variable. -/
  | declared (name : String) (v : Variable) (target : TargetType)
  /-- A slot is given to a temporary. -/
  | temporary (slot : UInt16) (target : TargetType)
  /-- A variable is loaded or stored in for a name. -/
  | used (name : String) (v : Variable)
  deriving DecidableEq

/-- What an event means for names in the source. -/
def ScopeEvent.name? : ScopeEvent → Option NameEvent
  | .opened => some .opened
  | .closed => some .closed
  | .declared name _ _ => some (.declared name)
  | .used name _ => some (.used name)
  | .bound _ _ _ | .temporary _ _ => none

/-- The variable that an instruction loads or stores in. -/
def Instruction.accessed? : Instruction → Option Slot
  | .loadArgument slot | .storeArgument slot => some (.parameter slot)
  | .loadLocal slot | .storeLocal slot => some (.local slot)
  | _ => none

/-! ## Names in the source -/

namespace Expression

mutual

/-- The names of the variables that the code of an expression loads and stores in, in order. -/
def names : Expression → List String
  | .intLiteral _ _ => []
  | .identifier _ name => [name]
  | .binary _ _ left right => left.names ++ right.names
  | .unary _ _ operand => operand.names
  | .assignment _ none (.identifier _ name) value => value.names ++ [name]
  | .assignment _ (some _) (.identifier _ name) value => name :: value.names ++ [name]
  | .assignment _ _ target value => target.names ++ value.names
  | .call _ _ arguments => argumentNames arguments
  | .subscript _ array index => array.names ++ index.names

/-- The names of the variables in arguments. -/
def argumentNames : List Expression → List String
  | [] => []
  | argument :: arguments => argument.names ++ argumentNames arguments

end

/-- What happens to names in an expression. -/
def events (e : Expression) : List NameEvent := e.names.map .used

end Expression

/-- What happens to names in a declaration. A variable with an initial value is declared behind it, and
then stored in. -/
def LocalDeclaration.events (d : LocalDeclaration) : List NameEvent :=
  match d.initializer with
  | none => [.declared d.name]
  | some e => e.events ++ [.declared d.name, .used d.name]

/-- What happens to names in an expression, if there is one. -/
def NameEvent.ofOptional (e : Option Expression) : List NameEvent := (e.map (·.events)).getD []

/-- What happens to names in a loop with a start, a test and an update, which comes before the body, as in
the source, or behind it. -/
def NameEvent.ofLoop (updateLast : Bool) (start : List NameEvent) (condition update : Option Expression)
    (body : List NameEvent) : List NameEvent :=
  start ++ ofOptional condition ++
    if updateLast then body ++ ofOptional update else ofOptional update ++ body

namespace Body

mutual

/-- What happens to names in a body. -/
def events (updateLast : Bool) : Body → List NameEvent
  | .block parts => .opened :: allEvents updateLast parts ++ [.closed]
  | .expression e => e.events
  | .declare locals => locals.flatMap LocalDeclaration.events
  | .conditional condition thenBranch none => condition.events ++ thenBranch.events updateLast
  | .conditional condition thenBranch (some elseBranch) =>
    condition.events ++ thenBranch.events updateLast ++ elseBranch.events updateLast
  | .whileLoop condition body => condition.events ++ body.events updateLast
  | .doWhileLoop body condition => body.events updateLast ++ condition.events
  | .forLoop none condition update body =>
    .opened :: NameEvent.ofLoop updateLast [] condition update (body.events updateLast) ++ [.closed]
  | .forLoop (some start) condition update body =>
    .opened :: NameEvent.ofLoop updateLast (start.events updateLast) condition update
      (body.events updateLast) ++ [.closed]
  | .ret value _ => NameEvent.ofOptional value
  | .exitLoop _ | .nextRound _ | .empty => []

/-- What happens to names in several bodies. -/
def allEvents (updateLast : Bool) : List Body → List NameEvent
  | [] => []
  | part :: parts => part.events updateLast ++ allEvents updateLast parts

end

theorem allEvents_singleton (updateLast : Bool) (b : Body) :
    allEvents updateLast [b] = b.events updateLast := by
  simp [allEvents]

theorem events_forLoop (updateLast : Bool) (start : Option Body) (condition update : Option Expression)
    (body : Body) : events updateLast (.forLoop start condition update body) =
      .opened :: NameEvent.ofLoop updateLast (allEvents updateLast start.toList) condition update
        (body.events updateLast) ++ [.closed] := by
  cases start with
  | none => rfl
  | some start => rw [Option.toList_some, allEvents_singleton, events]

end Body

/-! ## Histories -/

namespace Scope

/-- Something happens to a scope. -/
inductive Proceeds (s : Scope) : Option ScopeEvent → Scope → Prop where
  /-- Instructions are emitted that concern no variable. -/
  | code {code : List Instruction} : (∀ i ∈ code, i.accessed? = none) →
    Proceeds s none (s.append [] code)
  | reserve {count : Nat} : Proceeds s none (s.reserve count)
  | binds {label : Label} {t : Scope} : s.Binds label t → Proceeds s none t
  | openLoop {labels : LoopLabels} : Proceeds s none (s.openLoop labels)
  | closeLoop : Proceeds s none s.closeLoop
  | openBlock : Proceeds s (some .opened) s.openBlock
  | closeBlock : Proceeds s (some .closed) s.closeBlock
  | parameter {p : Parameter} {target : TargetType} : p.type.target = .ok target →
    (∀ name, p.name = some name → s.parameters.lookup name = none) →
    Proceeds s (some (.bound p.name
      ⟨.parameter (UInt16.ofNat s.assembler.method.parameters.length), p.type⟩ target))
      (s.pushParameter p target)
  /-- A local variable is declared. -/
  | declare {name : String} {type : CType} {target : TargetType} : type.isVoid = false →
    type.target = .ok target →
    Proceeds s (some (.declared name ⟨.local s.nextSlot, type⟩ target))
      (s.declareVariable name type target)
  /-- Instructions are emitted that concern a temporary. -/
  | temporary {type : TargetType} {code : List Instruction} :
    (∀ i ∈ code, ∀ slot, i.accessed? = some slot → slot = .local s.nextSlot) →
    Proceeds s (some (.temporary s.nextSlot type)) (s.append [type] code)
  | load {name : String} {v : Variable} : s.findVariable? name = some v →
    Proceeds s (some (.used name v)) (s.append [] [v.load])
  | store {name : String} {v : Variable} : s.findVariable? name = some v →
    Proceeds s (some (.used name v)) (s.append [] [v.store])

/-- What happens to a scope, in order. -/
inductive History : Scope → List ScopeEvent → Scope → Prop where
  | nil {s : Scope} : History s [] s
  | cons {s u t : Scope} {e : Option ScopeEvent} {events : List ScopeEvent} :
    s.Proceeds e u → History u events t → History s (e.toList ++ events) t

/-- What happens to a scope comes to what the source says about names. -/
def Tells (s : Scope) (names : List NameEvent) (t : Scope) : Prop :=
  ∃ events, s.History events t ∧ events.filterMap ScopeEvent.name? = names

variable {s u t : Scope}

theorem History.trans {events events' : List ScopeEvent} (h : s.History events u)
    (h' : u.History events' t) : s.History (events ++ events') t := by
  induction h with
  | nil => exact h'
  | cons hstep _ ih =>
    rw [List.append_assoc]
    exact .cons hstep (ih h')

theorem History.single {e : Option ScopeEvent} (h : s.Proceeds e t) : s.History e.toList t := by
  have hone := History.cons h .nil
  rwa [List.append_nil] at hone

namespace Tells

variable {names names' : List NameEvent}

theorem refl (s : Scope) : s.Tells [] s := ⟨[], .nil, rfl⟩

theorem trans (h : s.Tells names u) (h' : u.Tells names' t) : s.Tells (names ++ names') t := by
  obtain ⟨events, hevents, rfl⟩ := h
  obtain ⟨events', hevents', rfl⟩ := h'
  exact ⟨events ++ events', hevents.trans hevents', List.filterMap_append⟩

theorem before (h : s.Tells names u) (h' : u.Tells [] t) : s.Tells names t :=
  List.append_nil names ▸ h.trans h'

theorem after (h : u.Tells names t) (h' : s.Tells [] u) : s.Tells names t := h'.trans h

/-- Something happens that the source says nothing about. -/
theorem silent {e : Option ScopeEvent} (h : s.Proceeds e t) (he : e.bind ScopeEvent.name? = none) :
    s.Tells [] t := by
  refine ⟨_, .single h, ?_⟩
  cases e with
  | none => rfl
  | some e => simpa using he

/-- Something happens that the source says. -/
theorem single {e : ScopeEvent} {name : NameEvent} (h : s.Proceeds (some e) t)
    (he : e.name? = some name) : s.Tells [name] t := by
  refine ⟨_, .single h, ?_⟩
  simp [he]

theorem code (s : Scope) {code : List Instruction} (h : ∀ i ∈ code, i.accessed? = none) :
    s.Tells [] (s.append [] code) := silent (.code h) rfl

theorem binds {label : Label} (h : s.Binds label t) : s.Tells [] t := silent (.binds h) rfl

theorem reserve (s : Scope) (count : Nat) : s.Tells [] (s.reserve count) := silent .reserve rfl

end Tells

end Scope

/-! ## Code without names -/

theorem accessed_of_mem_coercion {source target : CType} : ∀ i ∈ coercion source target, i.accessed? = none := by
  unfold coercion
  repeat' split
  all_goals simp [Instruction.accessed?]

/-- The code of an operator concerns at most one variable, which is its temporary. -/
theorem OperatorCode.tells {s : Scope} {op : BinaryOp} {left right type : CType}
    {ts : List TargetType} {code : List Instruction}
    (h : OperatorCode s.nextSlot op left right ts code type) : s.Tells [] (s.append ts code) := by
  have hcomparison : ∀ op : ComparisonOp, ∀ i ∈ comparisonCode op, i.accessed? = none := by
    intro op
    unfold comparisonCode
    split <;> simp [Instruction.accessed?]
  have hscaling : ∀ size, ∀ i ∈ scaling size, i.accessed? = none := by
    intro size
    unfold scaling
    split <;> simp [Instruction.accessed?]
  have hunification : ∀ {code : List Instruction}, (∀ i ∈ code, i.accessed? = none) →
      s.Tells [] (s.append (unificationTemporaries left right)
        (unification left right s.nextSlot ++ code)) := by
    intro code hcode
    unfold unificationTemporaries unification
    cases (CType.arithmeticResult left right).isLong with
    | false => exact .code s hcode
    | true =>
      cases left.isLong with
      | true =>
        refine .code s (List.forall_mem_append.2 ⟨?_, hcode⟩)
        cases right.isLong <;> simp [Instruction.accessed?]
      | false =>
        refine .silent (e := some _) (.temporary ?_) rfl
        refine List.forall_mem_append.2 ⟨?_, fun i hi slot hslot => ?_⟩
        · cases right.isLong <;> simp [Instruction.accessed?]
        · rw [hcode i hi] at hslot
          cases hslot
  cases h with
  | compareIntegers => exact hunification (hcomparison _)
  | integers => exact hunification (by simp [Instruction.accessed?])
  | comparePointers => exact .code s (hcomparison _)
  | movePointer size =>
    exact .code s (List.forall_mem_append.2 ⟨hscaling size, by simp [Instruction.accessed?]⟩)
  | stepsFirst size type =>
    refine .silent (.temporary ?_) rfl
    refine List.forall_mem_append.2 ⟨List.forall_mem_cons.2 ⟨by simp [Instruction.accessed?], ?_⟩,
      by simp [Instruction.accessed?]⟩
    intro i hi slot hslot
    rw [hscaling size i hi] at hslot
    cases hslot
  | difference size =>
    refine .code s ?_
    unfold unscaling
    split <;> simp [Instruction.accessed?]

/-! ## Expressions -/

/-- What the code of a part of an expression has to do with names. -/
def Emission.names : Emission → List String
  | .value e _ | .address e _ => e.names
  | .arguments es _ => Expression.argumentNames es

namespace Scope.Tells

variable {s u t : Scope}

/-- The value on top of the stack is converted and assigned to a variable. -/
theorem assigned {name : String} {v : Variable} (h : s.findVariable? name = some v)
    (source target : CType) :
    s.Tells [.used name] (s.append [] (coercion source target ++ [.dup, v.store])) := by
  have hcode : s.Tells [] (s.append [] (coercion source target ++ [.dup])) :=
    .code s (List.forall_mem_append.2 ⟨accessed_of_mem_coercion, by simp [Instruction.accessed?]⟩)
  have hstore := hcode.trans (.single (.store h) rfl)
  rwa [Scope.append_append, List.append_assoc] at hstore

/-- The value on top of the stack is converted and stored through an address below it. -/
theorem storedThrough (s : Scope) (source target : CType) (stored : TargetType) :
    s.Tells [] (s.append [stored] (coercion source target ++
      [.dup, .storeLocal s.nextSlot, .store stored, .loadLocal s.nextSlot])) := by
  refine .silent (.temporary (List.forall_mem_append.2 ⟨fun i hi slot hslot => ?_, ?_⟩)) rfl
  · rw [accessed_of_mem_coercion i hi] at hslot
    cases hslot
  · simp [Instruction.accessed?]

end Scope.Tells

/-- An assignment through an address stores in no variable. -/
theorem Emission.Code.names_assignment {s u : Scope} {target : Expression} {element : CType}
    (h : (Emission.address target element).Code s u) (span : Span) (op : Option BinaryOp)
    (value : Expression) :
    (Expression.assignment span op target value).names = target.names ++ value.names := by
  cases h <;> cases op <;> simp [Expression.names]

/-- The code of an expression has a history that tells what the expression says. -/
theorem Emission.Code.tells {e : Emission} {s t : Scope} (h : e.Code s t) :
    s.Tells (e.names.map .used) t := by
  induction h with
  | intLiteral | longLiteral => exact .code _ (by simp [Instruction.accessed?])
  | identifier hv => exact .single (.load hv) rfl
  | logical _ _ _ _ hw ht ihl ihr =>
    have hleft := ihl.after (.reserve _ _)
    have hright := (ihr.after (.code _ (by simp [Instruction.accessed?]))).before
      ((Scope.Tells.binds hw).after (.code _ (by simp [Instruction.accessed?])))
    have hend := (Scope.Tells.binds ht).after (.code _ (by simp [Instruction.accessed?]))
    simpa [Emission.names, Expression.names] using hleft.trans (hright.before hend)
  | binary _ _ hcode ihl ihr | subscript _ _ hcode _ ihl ihr =>
    simpa [Emission.names, Expression.names] using ihl.trans (ihr.before hcode.tells)
  | negate _ _ ih | bitNot _ _ ih | logicalNot _ _ ih =>
    simpa [Emission.names, Expression.names] using
      ih.before (.code _ (by simp [Instruction.accessed?]))
  | load _ _ ih => exact ih.before (.code _ (by simp [Instruction.accessed?]))
  | call _ _ _ ih =>
    simpa [Emission.names, Expression.names] using
      ih.before (.code _ (by simp [Instruction.accessed?]))
  | assign hv hcode _ ih =>
    have hfind := (hcode.emits.findVariable? _).trans hv
    simpa [Emission.names, Expression.names] using ih.trans (.assigned hfind _ _)
  | @update s u span span' name value v op valueType type ts code hv hcode hop _ ih =>
    have hfind : (u.append ts code).findVariable? name = some v :=
      (hcode.emits.findVariable? name).trans hv
    have hvalue := (Scope.Tells.single (.load hv) rfl).trans (ih.before hop.tells)
    have h := hvalue.trans (.assigned hfind type v.type)
    rw [Scope.append_append, List.append_nil, ← List.append_assoc] at h
    simpa [Emission.names, Expression.names] using h
  | @assignThrough s u v span target value element type stored htarget _ _ _ iha ihv =>
    have h := iha.trans (ihv.before (.storedThrough v type element stored))
    simpa [Emission.names, htarget.names_assignment] using h
  | @updateThrough s u v w span target value op element valueType type stored ts code htarget _ _ hcode _ hw
      iha ihv =>
    subst hw
    have hvalue := (ihv.after (.code _ (by simp [Instruction.accessed?]))).before hcode.tells
    have h := iha.trans (hvalue.before (.storedThrough _ type element stored))
    simpa [Emission.names, htarget.names_assignment] using h
  | dereference _ _ ih => simpa [Emission.names, Expression.names] using ih
  | noArguments => exact .refl _
  | argument _ _ _ ihe ih =>
    simpa [Emission.names, Expression.argumentNames] using
      (ihe.before (.code _ accessed_of_mem_coercion)).trans ih

/-! ## Statements -/

section

variable {s t : Scope}

/-- The code of an expression whose value is dropped has a history that tells what the expression says. -/
theorem Expression.EffectCode.tells {e : Option Expression} (h : EffectCode s e t) :
    s.Tells (NameEvent.ofOptional e) t := by
  cases h with
  | none => exact .refl s
  | some he => exact he.tells.before (.code _ (by split <;> simp [Instruction.accessed?]))

/-- The code of a test has a history that tells what the test says. -/
theorem Expression.TestCode.tells {e : Option Expression} {label : Label} (h : TestCode s e label t) :
    s.Tells (NameEvent.ofOptional e) t := by
  cases h with
  | none => exact .refl s
  | some he _ => exact he.tells.before (.code _ (by simp [Instruction.accessed?]))

/-- The code of a local declaration has a history that tells what the declaration says. -/
theorem LocalDeclaration.Code.tells {d : LocalDeclaration} (h : d.Code s t) : s.Tells d.events t := by
  cases h with
  | plain hd hvoid htarget =>
    unfold events
    rw [hd]
    exact .single (.declare hvoid htarget) rfl
  | initialized hd he _ hvoid htarget =>
    rename_i u e type target _
    unfold events
    rw [hd]
    have hdeclared : u.Tells [.declared d.name] (u.declareVariable d.name d.type target) :=
      .single (.declare hvoid htarget) rfl
    have hfind : (u.declareVariable d.name d.type target).findVariable? d.name =
        some ⟨.local u.nextSlot, d.type⟩ := by
      rw [Scope.findVariable?_eq, Scope.names_declareVariable]
      exact List.lookup_cons_self
    have hcode := hdeclared.before (.code _ (@accessed_of_mem_coercion type d.type))
    have h := he.tells.trans (hcode.trans (.single (.store hfind) rfl))
    rw [Scope.append_append] at h
    exact h

/-- The code of local declarations has a history that tells what the declarations say. -/
theorem LocalDeclaration.ListCode.tells {ds : List LocalDeclaration} (h : ListCode s ds t) :
    s.Tells (ds.flatMap LocalDeclaration.events) t := by
  induction h with
  | nil => exact .refl _
  | cons hd _ ih =>
    rw [List.flatMap_cons]
    exact hd.tells.trans ih

/-- The code of bodies has a history that tells what they say, with the update of a loop behind its
body. -/
theorem Body.Code.tells {bs : List Body} (h : Body.Code s bs t) : s.Tells (allEvents true bs) t := by
  induction h with
  | nil => exact .refl _
  | cons _ _ ih ih' =>
    rw [allEvents_singleton] at ih
    exact ih.trans ih'
  | block _ ih =>
    rw [allEvents_singleton, events]
    exact (Scope.Tells.single .openBlock rfl).trans (ih.trans (.single .closeBlock rfl))
  | expression he =>
    rw [allEvents_singleton, events]
    exact he.tells
  | declare hd =>
    rw [allEvents_singleton, events]
    exact hd.tells
  | conditional hc _ hm ih =>
    rw [allEvents_singleton] at ih ⊢
    exact (hc.tells.after (.reserve _ 1)).trans (ih.before (.binds hm))
  | choice hc _ hw _ ht ih ih' =>
    rw [allEvents_singleton] at ih ih' ⊢
    have hthen := (hc.tells.after (.reserve _ 1)).trans (ih.before (.reserve _ 1))
    have helse := (Scope.Tells.binds hw).after (.code _ (by split <;> simp [Instruction.accessed?]))
    exact (hthen.before helse).trans (ih'.before (.binds ht))
  | whileLoop ha hc _ ht ih =>
    rw [allEvents_singleton] at ih ⊢
    have htest := (hc.tells.after (.binds ha)).after (.reserve _ 2)
    have hbody := (ih.after (.silent .openLoop rfl)).before (.silent .closeLoop rfl)
    have hend := (Scope.Tells.binds ht).after (.code _ (by simp [Instruction.accessed?]))
    exact htest.trans (hbody.before hend)
  | doWhileLoop ha _ hw hc _ ht ih =>
    rw [allEvents_singleton] at ih ⊢
    have hstart := (ih.after (.silent .openLoop rfl)).after ((Scope.Tells.binds ha).after (.reserve _ 3))
    have hbody := (hstart.before (.silent .closeLoop rfl)).before (.binds hw)
    have hend := (Scope.Tells.binds ht).after (.code _ (by simp [Instruction.accessed?]))
    exact hbody.trans (hc.tells.before hend)
  | forLoop _ ha hc _ hw hu ht ihstart ihbody =>
    rw [allEvents_singleton] at ihbody ⊢
    rw [events_forLoop]
    have htest := hc.tells.after ((Scope.Tells.binds ha).after (.reserve _ 3))
    have hbody := (ihbody.after (.silent .openLoop rfl)).before
      ((Scope.Tells.silent .closeLoop rfl).before (.binds hw))
    have hend := (Scope.Tells.binds ht).after (.code _ (by simp [Instruction.accessed?]))
    have hloop := (ihstart.trans htest).trans (hbody.trans (hu.tells.before hend))
    exact (Scope.Tells.single .openBlock rfl).trans (hloop.trans (.single .closeBlock rfl))
  | exitLoop | nextRound | ret => exact .code _ (by simp [Instruction.accessed?])
  | empty => exact .refl _
  | retValue _ he _ =>
    rw [allEvents_singleton, events]
    exact he.tells.before (.code _ (List.forall_mem_append.2
      ⟨accessed_of_mem_coercion, by simp [Instruction.accessed?]⟩))

end

/-! ## Functions -/

/-- Bound parameters have a history of nothing else. -/
theorem Scope.BindsParameters.history {s t : Scope} {ps : List Parameter} (h : s.BindsParameters ps t) :
    ∃ events, s.History events t ∧ events.filterMap ScopeEvent.name? = [] := by
  induction h with
  | nil => exact ⟨[], .nil, rfl⟩
  | cons htarget hnew _ ih =>
    obtain ⟨events, hevents, hnone⟩ := ih
    exact ⟨_, .cons (.parameter htarget hnew) hevents, hnone⟩

/-- A compiled function has a history, which tells what its body says. -/
theorem CompiledFunction.history (f : CompiledFunction) : ∃ t,
    (Scope.begin f.signature f.functions).Tells (f.unit.body.events true) t ∧
      t.assembler.method = f.method := by
  have hcode := f.code
  generalize f.method = m at hcode
  cases hcode with
  | mk hp hb _ =>
    have hbody := hb.tells
    rw [Body.allEvents_singleton] at hbody
    refine ⟨_, (hbody.after hp.history).before (.code _ ?_), rfl⟩
    unfold FunctionUnit.epilogue
    repeat' split
    all_goals simp [Instruction.accessed?]

end ManagedC
