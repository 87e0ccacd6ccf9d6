import ManagedC.Proofs.Run.Assignments

/-!
# Expressions without side effects

An expression gives a value in a setting, that is, with certain names, variables and memory, if its code
leaves that value on the stack wherever it stands, and leaves variables and memory as they are
(`Setting.Gives`). An expression may also give the kind of a fault. There is more than one way to say what
becomes of a call; what passes from the parts of an expression to the whole does so for each of them
(`Setting.Course`). Main statements: what literals and variables give (`Setting.Course.Settles.read`) and
what the code of an address leads to (`Setting.Course.Settles.dereference`,
`Setting.Course.Settles.load`).
-/

namespace ManagedC

/-! ## Faults by their kinds -/

/-- What sort of fault it is, without its cause. -/
inductive Fault.Kind where
  /-- An unmanaged pointer into an array that is not pinned is used. -/
  | accessViolation
  /-- A block is freed twice. -/
  | doubleFree
  /-- A freed block is used. -/
  | useAfterFree
  /-- A null reference is used. -/
  | nullReference
  /-- A number is divided by zero. -/
  | divideByZero
  /-- An index is outside an array. -/
  | indexOutOfRange
  /-- An access is outside a block, or between the elements of an array. -/
  | outOfBounds
  /-- A value or type does not fit. -/
  | typeMismatch
  /-- The program is not well-formed. -/
  | invalidProgram
  /-- There is no method of the name. -/
  | missingMethod
  /-- Too many calls are open. -/
  | stackOverflow
  /-- Too many instructions are executed. -/
  | stepLimitExceeded
  deriving DecidableEq

/-- The sort of a fault. -/
def Fault.kind : Fault → Fault.Kind
  | .accessViolation _ => .accessViolation
  | .doubleFree _ => .doubleFree
  | .useAfterFree _ => .useAfterFree
  | .nullReference => .nullReference
  | .divideByZero => .divideByZero
  | .indexOutOfRange _ _ => .indexOutOfRange
  | .outOfBounds _ _ => .outOfBounds
  | .typeMismatch _ => .typeMismatch
  | .invalidProgram _ => .invalidProgram
  | .missingMethod _ => .missingMethod
  | .stackOverflow _ => .stackOverflow
  | .stepLimitExceeded _ => .stepLimitExceeded

namespace Activation

variable {program : Module} {store : Store} {a b c : Activation}

/-- A call comes from one state to another and the store is the same again, if so many steps may be made
and so many calls may be in progress. -/
def ReachesIn (program : Module) (store : Store) (a b : Activation) : Prop :=
  ∃ n d, ∀ (limits : Limits) (steps : Nat) (callers : List Activation),
    steps + n ≤ limits.steps → store.depth + d ≤ limits.depth →
      Run.Leads program limits ⟨store, steps, a, callers⟩ ⟨store, steps + n, b, callers⟩

/-- A call comes from one state to another by itself and the store is the same again, if so many steps may be
made. -/
def RunsTo (program : Module) (store : Store) (a b : Activation) : Prop :=
  ∃ n, ∀ (limits : Limits) (steps : Nat) (callers : List Activation), steps + n ≤ limits.steps →
    Run.Leads program limits ⟨store, steps, a, callers⟩ ⟨store, steps + n, b, callers⟩

/-- The next instruction faults, and the fault is of a sort. -/
def FaultsNext (store : Store) (a : Activation) (kind : Fault.Kind) : Prop :=
  ∃ i f, a.instruction? = some i ∧ i.isControl = false ∧ Fails (a.execute i) store f store ∧
    f.kind = kind

theorem ReachesIn.trans (h : a.ReachesIn program store b) (h' : b.ReachesIn program store c) :
    a.ReachesIn program store c := by
  obtain ⟨n, d, h⟩ := h
  obtain ⟨n', d', h'⟩ := h'
  refine ⟨n + n', max d d', ?_⟩
  intro limits steps callers hsteps hdepth
  have hfirst := h limits steps callers (by omega) (by omega)
  have hsecond := h' limits (steps + n) callers (by omega) (by omega)
  rw [Nat.add_assoc] at hsecond
  exact hfirst.trans hsecond

theorem RunsTo.reachesIn (h : a.RunsTo program store b) : a.ReachesIn program store b := by
  obtain ⟨n, h⟩ := h
  refine ⟨n, 0, ?_⟩
  intro limits steps callers hsteps _
  exact h limits steps callers hsteps

theorem RunsTo.trans (h : a.RunsTo program store b) (h' : b.RunsTo program store c) :
    a.RunsTo program store c := by
  obtain ⟨n, h⟩ := h
  obtain ⟨n', h'⟩ := h'
  refine ⟨n + n', ?_⟩
  intro limits steps callers hsteps
  have hfirst := h limits steps callers (by omega)
  have hsecond := h' limits (steps + n) callers (by omega)
  rw [Nat.add_assoc] at hsecond
  exact hfirst.trans hsecond

/-- An instruction is executed. -/
theorem RunsTo.of_executes {i : Instruction} (hi : a.instruction? = some i)
    (hcontrol : i.isControl = false) (h : a.Executes store i b store) : a.RunsTo program store b := by
  refine ⟨1, ?_⟩
  intro limits steps callers hsteps
  exact .single trivial (.executed (r := ⟨store, steps, a, callers⟩) hsteps hi hcontrol h)

/-- Straight-line code is run. -/
theorem Follows.runsTo {code : List Instruction} (h : a.Follows store code b)
    (hcode : a.method.HasCode a.pc code) : a.RunsTo program store b := by
  refine ⟨code.length, ?_⟩
  intro limits steps callers hsteps
  exact .follows h hcode hsteps fun _ _ _ _ _ => trivial

theorem execute_onTop {i : Instruction} {f : Value → Except Fault Value} (hi : i.onTop? = some f) :
    a.execute i = do return (← Access.ofExcept (a.mapTop f)).advance := by
  cases i <;> cases hi <;> rfl

theorem execute_onTop2 {i : Instruction} {f : Value → Value → Except Fault Value}
    (hi : i.onTop2? = some f) : a.execute i = do return (← Access.ofExcept (a.mapTop2 f)).advance := by
  cases i <;> cases hi <;> rfl

theorem isControl_onTop {i : Instruction} {f : Value → Except Fault Value} (hi : i.onTop? = some f) :
    i.isControl = false := by
  cases i <;> first | rfl | cases hi

theorem isControl_onTop2 {i : Instruction} {f : Value → Value → Except Fault Value}
    (hi : i.onTop2? = some f) : i.isControl = false := by
  cases i <;> first | rfl | cases hi

/-- What the topmost value cannot be turned into is a fault. -/
theorem faultsNext_onTop {i : Instruction} {g : Value → Except Fault Value} {v : Value}
    {rest : List Value} {f : Fault} (hg : i.onTop? = some g) (ha : a.stack = v :: rest)
    (hv : g v = .error f) (hi : a.instruction? = some i) : a.FaultsNext store f.kind := by
  have htop : a.mapTop g = .error f := by
    unfold mapTop pop
    rw [ha]
    show (g v >>= fun w => _) = _
    rw [hv]
    rfl
  refine ⟨i, f, hi, isControl_onTop hg, ?_, rfl⟩
  rw [execute_onTop hg, htop]
  exact Fails.bind_iff.2 (.inl rfl)

/-- What the two topmost values cannot be combined into is a fault. -/
theorem faultsNext_onTop2 {i : Instruction} {g : Value → Value → Except Fault Value} {v w : Value}
    {rest : List Value} {f : Fault} (hg : i.onTop2? = some g) (ha : a.stack = w :: v :: rest)
    (hv : g v w = .error f) (hi : a.instruction? = some i) : a.FaultsNext store f.kind := by
  have htop : a.mapTop2 g = .error f := by
    unfold mapTop2 pop
    rw [ha]
    show (g v w >>= fun u => _) = _
    rw [hv]
    rfl
  refine ⟨i, f, hi, isControl_onTop2 hg, ?_, rfl⟩
  rw [execute_onTop2 hg, htop]
  exact Fails.bind_iff.2 (.inl rfl)

/-- A call that comes to an instruction that faults ends the run with a crash, or a caller deals with it. -/
theorem FaultsNext.step {kind : Fault.Kind} {limits : Limits} {steps : Nat} {callers : List Activation}
    (h : a.FaultsNext store kind) (hsteps : steps < limits.steps) :
    ∃ f, f.kind = kind ∧ Run.step program limits ⟨store, steps, a, callers⟩ =
      Run.raise store (steps + 1) (a.crash f) a callers := by
  obtain ⟨i, f, hi, hcontrol, hfails, hkind⟩ := h
  have hstep : Run.StepsTo program limits ⟨store, steps, a, callers⟩ _ :=
    .faulted hsteps hi hcontrol hfails
  exact ⟨f, hkind, hstep.step_eq⟩

end Activation

/-! ## Settings -/

/-- What an expression can use: the program, the names in scope, the values of the variables and memory. -/
structure Setting where
  /-- The program. -/
  program : Module
  /-- The names in scope. -/
  scope : Scope
  /-- The values of the variables. -/
  kept? : Slot → Option Value
  /-- Memory. -/
  store : Store

namespace Setting

/-- The code is compiled where the names of the setting are in scope. -/
def Sees (E : Setting) (u : Scope) : Prop := u = { E.scope with assembler := u.assembler }

/-- Code that is compiled in a scope is about to be executed in the setting, by a method that numbers its
local variables without repetition. -/
structure Has (E : Setting) (u : Scope) (a : Activation) : Prop where
  /-- The names are those of the setting. -/
  sees : E.Sees u
  /-- The variables have been declared before. -/
  below : ∀ p ∈ E.scope.names, p.2.slot.Below u.assembler.method.locals.size
  /-- The method has at most so many local variables. -/
  addressable : a.method.locals.size ≤ 2 ^ 16
  /-- There is a value for each of them, and for each parameter. -/
  sized : a.Sized
  pc : a.pc = u.offset
  /-- The variables have their values. -/
  kept : ∀ p ∈ E.scope.names, a.kept? p.2.slot = E.kept? p.2.slot

/-- What becomes of a call that begins with code that ends in a scope: the code leaves a value on top of
some others, or an instruction of it faults. Variables and memory stay as they are. -/
def Comes (E : Setting) (a : Activation) (t : Scope) (rest : List Value) :
    Except Fault.Kind Value → Prop
  | .ok v => ∃ b, a.ReachesIn E.program E.store b ∧ E.Has t b ∧ b.method = a.method ∧
      b.stack = v :: rest
  | .error kind => ∃ b, a.ReachesIn E.program E.store b ∧ b.FaultsNext E.store kind

/-- What becomes of a call that begins with code of its own that ends in a scope: the code leaves a value on
top of some others, or an instruction of it faults. Variables and memory stay as they are. -/
def Computes (E : Setting) (a : Activation) (t : Scope) (rest : List Value) :
    Except Fault.Kind Value → Prop
  | .ok v => ∃ b, a.RunsTo E.program E.store b ∧ E.Has t b ∧ a.Same b ∧ b.stack = v :: rest
  | .error kind => ∃ b, a.RunsTo E.program E.store b ∧ a.Same b ∧ b.FaultsNext E.store kind

/-- A way to say what becomes of a call that begins with code that ends in a scope: the code leaves a value on
top of some others, or something else happens. -/
structure Course (E : Setting) (ε : Type) where
  /-- What becomes of the call. -/
  Meets : Activation → Scope → List Value → Except ε Value → Prop
  /-- What becomes of it is a value or a fault. -/
  lift : Except Fault.Kind Value → Except ε Value
  /-- A value is a value. -/
  lift_ok : ∀ v, lift (.ok v) = .ok v
  /-- The call may execute code of its own. -/
  computes : ∀ {a : Activation} {t : Scope} {rest : List Value} {outcome : Except Fault.Kind Value},
    E.Computes a t rest outcome → Meets a t rest (lift outcome)
  /-- It may come to another state first. -/
  after : ∀ {a b : Activation} {t : Scope} {rest : List Value} {outcome : Except ε Value},
    a.RunsTo E.program E.store b → a.Same b → Meets b t rest outcome → Meets a t rest outcome
  /-- What comes behind the code begins with the value. -/
  bind : ∀ {a : Activation} {u t : Scope} {rest rest' : List Value} {first : Except ε Value}
      {next : Value → Except ε Value}, Meets a u rest first →
    (∀ v b, first = .ok v → E.Has u b → b.method = a.method → b.stack = v :: rest →
      Meets b t rest' (next v)) → Meets a t rest' (first >>= next)

/-- Wherever the code of a part of an expression stands, the part has a type, and the code comes to a value
or to something else. -/
structure Course.Settles {E : Setting} {ε : Type} (C : E.Course ε) (part : CType → Emission) (type : CType)
    (outcome : Except ε Value) : Prop where
  typed : ∀ {u t : Scope} {type' : CType}, E.Sees u → Emission.Code u (part type') t → type' = type
  /-- The value, or what happens. -/
  meets : ∀ {u t : Scope} {a : Activation}, Emission.Code u (part type) t → E.Has u a →
    t.assembler.method.Extends a.method → C.Meets a t a.stack outcome

/-- Wherever the code of an expression stands, the expression has a type, and the code comes to a value or
to a sort of fault. -/
structure Gives (E : Setting) (e : Expression) (type : CType) (outcome : Except Fault.Kind Value) :
    Prop where
  typed : ∀ {u t : Scope} {type' : CType}, E.Sees u → Emission.Code u (.value e type') t → type' = type
  /-- The value or the fault. -/
  comes : ∀ {u t : Scope} {a : Activation}, Emission.Code u (.value e type) t → E.Has u a →
    t.assembler.method.Extends a.method → E.Comes a t a.stack outcome

variable {E : Setting} {u t : Scope} {a b : Activation} {rest : List Value} {v w : Value}
  {outcome : Except Fault.Kind Value} {code : List Instruction} {ts : List TargetType}

theorem Computes.comes (h : E.Computes a t rest outcome) : E.Comes a t rest outcome := by
  cases outcome with
  | ok v =>
    obtain ⟨b, hab, hb, hsame, hstack⟩ := h
    exact ⟨b, hab.reachesIn, hb, hsame.method, hstack⟩
  | error kind =>
    obtain ⟨b, hab, -, hfaults⟩ := h
    exact ⟨b, hab.reachesIn, hfaults⟩

theorem Computes.after (hab : a.RunsTo E.program E.store b) (hsame : a.Same b)
    (h : E.Computes b t rest outcome) : E.Computes a t rest outcome := by
  cases outcome with
  | ok v =>
    obtain ⟨c, hbc, hc, hsame', hstack⟩ := h
    exact ⟨c, hab.trans hbc, hc, hsame.trans hsame', hstack⟩
  | error kind =>
    obtain ⟨c, hbc, hsame', hfaults⟩ := h
    exact ⟨c, hab.trans hbc, hsame.trans hsame', hfaults⟩

theorem Comes.after (hab : a.ReachesIn E.program E.store b) (hmethod : b.method = a.method)
    (h : E.Comes b t rest outcome) : E.Comes a t rest outcome := by
  cases outcome with
  | ok v =>
    obtain ⟨c, hbc, hc, hmethod', hstack⟩ := h
    exact ⟨c, hab.trans hbc, hc, hmethod'.trans hmethod, hstack⟩
  | error kind =>
    obtain ⟨c, hbc, hfaults⟩ := h
    exact ⟨c, hab.trans hbc, hfaults⟩

/-- A value or a fault in the call itself. -/
def course (E : Setting) : E.Course Fault.Kind where
  Meets := E.Comes
  lift := id
  lift_ok _ := rfl
  computes := Computes.comes
  after hab hsame h := .after hab.reachesIn hsame.method h
  bind {_ _ _ _ _ first _} h hnext := by
    cases first with
    | error kind => exact h
    | ok v =>
      obtain ⟨b, hab, hb, hmethod, hstack⟩ := h
      exact .after hab hmethod (hnext v b rfl hb hmethod hstack)

namespace Sees

theorem names (hu : E.Sees u) : u.names = E.scope.names := by
  rw [hu]
  rfl

theorem emits (hu : E.Sees u) (h : u.Emits t) : E.Sees t := by
  unfold Sees
  rw [h.eq]
  exact congrArg (fun s : Scope => { s with assembler := t.assembler }) hu

theorem findVariable? (hu : E.Sees u) (name : String) :
    u.findVariable? name = E.scope.findVariable? name := by
  rw [Scope.findVariable?_eq, Scope.findVariable?_eq, hu.names]

end Sees

namespace Has

/-- Behind straight-line code, which may change variables and memory. -/
theorem append {kept? : Slot → Option Value} (ha : E.Has u a) (hsame : a.Same b)
    (hpc : b.pc = a.pc + code.length) (hkept : ∀ p ∈ E.scope.names, b.kept? p.2.slot = kept? p.2.slot)
    (store : Store) : Has { E with kept? := kept?, store := store } (u.append ts code) b := by
  have hlocals : u.assembler.method.locals.size ≤ (u.append ts code).assembler.method.locals.size := by
    simp [Scope.append]
  refine ⟨?_, ?_, ?_, ?_, ?_, ?_⟩
  · exact congrArg (fun s : Scope => { s with assembler := (u.append ts code).assembler }) ha.sees
  · intro p hp
    exact (ha.below p hp).mono hlocals
  · rw [hsame.method]
    exact ha.addressable
  · exact ha.sized.same hsame
  · rw [hpc, Scope.offset_append, ha.pc]
  · exact hkept

/-- Straight-line code that leaves the variables alone is run. -/
theorem follows (ha : E.Has u a) (hM : (u.append ts code).assembler.method.Extends a.method)
    (h : a.Follows E.store code b)
    (hkept : ∀ p ∈ E.scope.names, b.kept? p.2.slot = a.kept? p.2.slot) :
    a.RunsTo E.program E.store b ∧ E.Has (u.append ts code) b := by
  have hcode := Scope.hasCode_append hM
  rw [← ha.pc] at hcode
  exact ⟨h.runsTo hcode, ha.append h.same h.pc (fun p hp => (hkept p hp).trans (ha.kept p hp)) E.store⟩

/-- Code that leaves a value. -/
theorem computes (ha : E.Has u a) (hM : (u.append ts code).assembler.method.Extends a.method)
    (h : a.Follows E.store code b)
    (hkept : ∀ p ∈ E.scope.names, b.kept? p.2.slot = a.kept? p.2.slot) (hb : b.stack = v :: rest) :
    E.Computes a (u.append ts code) rest (.ok v) := by
  obtain ⟨hruns, hhas⟩ := ha.follows hM h hkept
  exact ⟨b, hruns, hhas, h.same, hb⟩

/-- A temporary has a number that no variable has. -/
theorem kept?_temporary (ha : E.Has u a) (hM : (u.append ts code).assembler.method.Extends a.method)
    (hts : ts ≠ []) {p : String × Variable} (hp : p ∈ E.scope.names) :
    (a.keep v (.local u.nextSlot)).kept? p.2.slot = a.kept? p.2.slot := by
  refine Activation.kept?_keep_of_ne ?_
  intro heq
  have hbelow := ha.below p hp
  rw [← heq] at hbelow
  have hlt := hM.locals_le
  have hpos := List.length_pos_iff.2 hts
  simp only [Scope.append, Array.size_append, List.size_toArray, List.length_map] at hlt
  have haddressable := ha.addressable
  have hnext : u.nextSlot.toNat = u.assembler.method.locals.size :=
    UInt16.toNat_ofNat_of_lt' (show _ < 2 ^ 16 by omega)
  rw [Slot.Below, hnext] at hbelow
  exact Nat.lt_irrefl _ hbelow

end Has

/-! ## Parts of expressions -/

namespace Course

variable {ε : Type} {C : E.Course ε}

theorem value (h : E.Computes a t rest (.ok v)) : C.Meets a t rest (.ok v) :=
  C.lift_ok v ▸ C.computes h

namespace Settles

variable {span : Span} {e : Expression} {element : CType} {stored : TargetType} {outcome : Except ε Value}

/-- A literal. -/
theorem literal {n : Int64} (hfits : n.toInt32.toInt64 = n) :
    C.Settles (.value (.intLiteral span n)) .int (.ok (.int n)) := by
  constructor
  · intro u t type' _ hcode
    cases hcode with
    | intLiteral => rfl
    | longLiteral hlong => exact absurd hfits hlong
    | load haddress => cases haddress
  · intro u t a hcode ha hM
    cases hcode with
    | intLiteral =>
      have hpush : a.Follows E.store [.constInt32 n.toInt32] (a.push (.int n.toInt32.toInt64)).advance :=
        .cons rfl .constInt32 rfl .nil
      rw [hfits] at hpush
      exact value (ha.computes hM hpush (fun _ _ => rfl) rfl)
    | load haddress => cases haddress

/-- A literal that needs more than 32 bits. -/
theorem longLiteral {n : Int64} (hlong : n.toInt32.toInt64 ≠ n) :
    C.Settles (.value (.intLiteral span n)) .long (.ok (.int n)) := by
  constructor
  · intro u t type' _ hcode
    cases hcode with
    | intLiteral hfits => exact absurd hfits hlong
    | longLiteral => rfl
    | load haddress => cases haddress
  · intro u t a hcode ha hM
    cases hcode with
    | longLiteral =>
      have hpush : a.Follows E.store [.constInt64 n] (a.push (.int n)).advance :=
        .cons rfl .constInt64 rfl .nil
      exact value (ha.computes hM hpush (fun _ _ => rfl) rfl)
    | load haddress => cases haddress

/-- A variable. -/
theorem read {name : String} {x : Variable} (hx : E.scope.findVariable? name = some x)
    (hv : E.kept? x.slot = some v) : C.Settles (.value (.identifier span name)) x.type (.ok v) := by
  constructor
  · intro u t type' hu hcode
    cases hcode with
    | identifier hfound =>
      rw [hu.findVariable?, hx] at hfound
      rw [Option.some.inj hfound]
    | load haddress => cases haddress
  · intro u t a hcode ha hM
    generalize htype : x.type = type at hcode
    cases hcode with
    | identifier hfound =>
      rw [ha.sees.findVariable?, hx] at hfound
      obtain rfl := Option.some.inj hfound
      have hkept := (ha.kept _ (Scope.mem_names_of_findVariable? hx)).trans hv
      exact value (ha.computes hM (Activation.follows_load hkept E.store) (fun _ _ => rfl) rfl)
    | load haddress => cases haddress

/-- The address of what a pointer points to is its value. -/
theorem dereference (h : C.Settles (.value e) (.pointer element) outcome) :
    C.Settles (.address (.unary span .dereference e)) element outcome := by
  constructor
  · intro u t type' hu hcode
    cases hcode with
    | dereference he => exact CType.pointer.inj (h.typed hu he)
  · intro u t a hcode ha hM
    cases hcode with
    | dereference he => exact h.meets he ha hM

end Settles

end Course

namespace Gives

variable {span : Span} {e x y : Expression} {type : CType}

theorem settles (h : E.Gives e type outcome) : E.course.Settles (.value e) type outcome :=
  ⟨h.typed, h.comes⟩

theorem of_settles (h : E.course.Settles (.value e) type outcome) : E.Gives e type outcome :=
  ⟨h.typed, h.meets⟩

/-- A literal. -/
theorem literal {n : Int64} (hfits : n.toInt32.toInt64 = n) :
    E.Gives (.intLiteral span n) .int (.ok (.int n)) := of_settles (.literal hfits)

/-- A variable. -/
theorem read {name : String} {x : Variable} (hx : E.scope.findVariable? name = some x)
    (hv : E.kept? x.slot = some v) : E.Gives (.identifier span name) x.type (.ok v) :=
  of_settles (.read hx hv)

/-- The code of a subscript is that of a sum, and what it leads to. -/
theorem subscript {span' span'' : Span}
    (h : E.Gives (.unary span .dereference (.binary span' (.arithmetic .add) x y)) type outcome) :
    E.Gives (.subscript span'' x y) type outcome := by
  have hsame : ∀ {u t : Scope} {type' : CType}, Emission.Code u (.value (.subscript span'' x y) type') t →
      Emission.Code u
        (.value (.unary span .dereference (.binary span' (.arithmetic .add) x y)) type') t := by
    intro u t type' hcode
    cases hcode with
    | load haddress htarget =>
      cases haddress with
      | subscript hx hy hoperator hvoid =>
        exact .load (.dereference (.binary hx hy hoperator) hvoid) htarget
  exact ⟨fun hu hcode => h.typed hu (hsame hcode), fun hcode ha hM => h.comes (hsame hcode) ha hM⟩

end Gives

end Setting

end ManagedC
