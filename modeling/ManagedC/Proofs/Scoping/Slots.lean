import ManagedC.Proofs.Scoping.History
import ManagedC.Syntax.Construct

/-!
# Which slot belongs to which variable

Parameters, local variables and temporaries get the numbers of their entries in the method as slots, in
sixteen bits. Main statements: `Method.Allots` says what that means for a method and its history, and every
compiled function allots (`CompiledFunction.allots`). As long as a method has no more than 65,536
parameters and local variables, no slot is given twice and every slot names the entry that it was given for
(`FunctionDefinition.compile_slots`). Beyond that a slot is given to several variables
(`FunctionDefinition.compile_crowd`).
-/

namespace ManagedC

open Yields

namespace ScopeEvent

/-- The slot that is given to a parameter, and the entry of the parameter. -/
def parameter? : ScopeEvent → Option (Slot × MethodParameter)
  | .bound name v target => some (v.slot, ⟨name, target⟩)
  | _ => none

/-- The slot that is given to a local variable or a temporary, and the entry of it. -/
def local? : ScopeEvent → Option (Slot × LocalVariable)
  | .declared name v target => some (v.slot, ⟨some name, target, false⟩)
  | .temporary slot target => some (.local slot, ⟨none, target, false⟩)
  | _ => none

/-- The slot that is given. -/
def slot? (e : ScopeEvent) : Option Slot := (e.parameter?.map (·.1)) <|> (e.local?.map (·.1))

/-- A variable comes to be known by a name. -/
def Introduces (e : ScopeEvent) (name : String) (v : Variable) : Prop :=
  ∃ target, v.type.target = .ok target ∧
    (e = .declared name v target ∨ e = .bound (some name) v target)

theorem Introduces.slot? {e : ScopeEvent} {name : String} {v : Variable} (h : e.Introduces name v) :
    e.slot? = some v.slot := by
  obtain ⟨target, _, rfl | rfl⟩ := h <;> rfl

end ScopeEvent

/-- The name and the type of the entry that a slot names. -/
def Method.entryAt? (m : Method) : Slot → Option (Option String × TargetType)
  | .parameter index => m.parameters[index.toNat]?.map fun p => (p.name, p.type)
  | .local index => m.locals[index.toNat]?.map fun v => (v.name, v.type)

/-- The slots that a method's variables were given while it was made. -/
structure Method.Allots (m : Method) (events : List ScopeEvent) : Prop where
  /-- Parameters get their numbers, in sixteen bits. -/
  parameters : events.filterMap ScopeEvent.parameter? =
    m.parameters.mapIdx fun index p => (.parameter (UInt16.ofNat index), p)
  /-- Local variables and temporaries get their numbers, in sixteen bits. -/
  locals : events.filterMap ScopeEvent.local? =
    m.locals.toList.mapIdx fun index v => (.local (UInt16.ofNat index), v)
  /-- What is used for a name was introduced under this name before. -/
  used : ∀ before name v after, events = before ++ .used name v :: after →
    ∃ e ∈ before, e.Introduces name v
  /-- Every slot of an instruction was given. -/
  accessed : ∀ i ∈ m.body.instructions, ∀ slot, i.accessed? = some slot →
    ∃ e ∈ events, e.slot? = some slot

/-- The slots that were given are told apart, and each names the entry that it was given for. -/
structure Method.Separates (m : Method) (events : List ScopeEvent) : Prop where
  /-- No two parameters have the same slot. -/
  parameters : ((events.filterMap ScopeEvent.parameter?).map (·.1)).Nodup
  /-- No two local variables or temporaries have the same slot. -/
  locals : ((events.filterMap ScopeEvent.local?).map (·.1)).Nodup
  /-- The slot of a parameter names its entry. -/
  parameterEntry : ∀ slot p, (slot, p) ∈ events.filterMap ScopeEvent.parameter? →
    m.entryAt? slot = some (p.name, p.type)
  /-- The slot of a local variable or a temporary names its entry. -/
  localEntry : ∀ slot v, (slot, v) ∈ events.filterMap ScopeEvent.local? →
    m.entryAt? slot = some (v.name, v.type)
  /-- The slot that is used for a name names the entry of a variable with this name, whose type holds the
  values of the variable. -/
  used : ∀ name v, .used name v ∈ events →
    ∃ target, v.type.target = .ok target ∧ m.entryAt? v.slot = some (some name, target)

/-! ## Tables that grow -/

section

variable {α : Type}

/-- The entries of a table get their numbers as slots, whenever something happens. -/
def Scope.Numbers (table : Method → List α) (slot : UInt16 → Slot)
    (made? : ScopeEvent → Option (Slot × α)) : Prop :=
  ∀ {s t : Scope} {e : Option ScopeEvent}, s.Proceeds e t →
    e.bind made? = none ∧ table t.assembler.method = table s.assembler.method ∨
    ∃ x, e.bind made? = some (slot (UInt16.ofNat (table s.assembler.method).length), x) ∧
      table t.assembler.method = table s.assembler.method ++ [x]

variable {table : Method → List α} {slot : UInt16 → Slot} {made? : ScopeEvent → Option (Slot × α)}
  {s t : Scope} {events : List ScopeEvent}

/-- What was added to a table while things happened is what they say. -/
theorem Scope.Numbers.history (h : Scope.Numbers table slot made?) (ht : s.History events t) :
    ∃ added, table t.assembler.method = table s.assembler.method ++ added ∧
      events.filterMap made? = added.mapIdx fun index x =>
        (slot (UInt16.ofNat ((table s.assembler.method).length + index)), x) := by
  induction ht with
  | nil => exact ⟨[], by simp, rfl⟩
  | @cons s u t e events hstep _ ih =>
    obtain ⟨added, hadded, hentries⟩ := ih
    have hfirst : e.toList.filterMap made? = (e.bind made?).toList := by
      cases e with
      | none => rfl
      | some e => cases h : made? e <;> simp [h]
    rw [List.filterMap_append, hfirst, hentries]
    rcases h hstep with ⟨hnone, hsame⟩ | ⟨x, hx, hgrown⟩
    · rw [hsame] at hadded
      exact ⟨added, hadded, by rw [hnone, hsame]; rfl⟩
    · refine ⟨x :: added, by rw [hadded, hgrown]; simp, ?_⟩
      rw [hx, hgrown, List.mapIdx_cons]
      simp [Nat.add_assoc, Nat.add_comm 1]

end

namespace Scope

theorem numbers_parameters : Numbers (·.parameters) .parameter ScopeEvent.parameter? := by
  intro s t e h
  cases h with
  | code | reserve | openLoop | closeLoop | openBlock | closeBlock | declare | temporary | load | store =>
    exact .inl ⟨rfl, rfl⟩
  | binds h => exact .inl ⟨rfl, h.emits.method.parameters⟩
  | parameter => exact .inr ⟨_, rfl, rfl⟩

theorem numbers_locals : Numbers (·.locals.toList) .local ScopeEvent.local? := by
  intro s t e h
  cases h with
  | code | load | store => exact .inl ⟨rfl, by simp [append]⟩
  | reserve | openLoop | closeLoop | openBlock | closeBlock | parameter => exact .inl ⟨rfl, rfl⟩
  | binds h => exact .inl ⟨rfl, congrArg Array.toList h.locals⟩
  | declare => exact .inr ⟨_, rfl, by simp [declareVariable, Assembler.pushLocal]⟩
  | temporary => exact .inr ⟨_, rfl, by simp [append]⟩

/-! ## Names that can be referred to -/

variable {s t : Scope}

/-- A name that can be referred to after something happened could be referred to before or is new. -/
theorem Proceeds.names {e : Option ScopeEvent} (h : s.Proceeds e t) {name : String} {v : Variable}
    (hv : (name, v) ∈ t.names) : (name, v) ∈ s.names ∨ ∃ x, e = some x ∧ x.Introduces name v := by
  cases h with
  | code | reserve | openLoop | closeLoop | openBlock | temporary | load | store => exact .inl hv
  | binds h => exact .inl (h.emits.names ▸ hv)
  | closeBlock => exact .inl (s.names_closeBlock.mem hv)
  | @parameter p target htarget =>
    obtain ⟨type, name'⟩ := p
    cases name' with
    | none => exact .inl hv
    | some name' =>
      rcases List.mem_append.1 hv with hv | hv
      · exact .inl (List.mem_append_left _ hv)
      · rcases List.mem_cons.1 hv with heq | hv
        · cases heq
          exact .inr ⟨_, rfl, target, htarget, .inr rfl⟩
        · exact .inl (List.mem_append_right _ hv)
  | declare _ htarget =>
    rw [names_declareVariable] at hv
    rcases List.mem_cons.1 hv with heq | hv
    · cases heq
      exact .inr ⟨_, rfl, _, htarget, .inl rfl⟩
    · exact .inl hv

/-- Every name that can be referred to in the end could be referred to in the beginning or was introduced. -/
theorem History.names {events : List ScopeEvent} (h : s.History events t) {name : String}
    {v : Variable} (hv : (name, v) ∈ t.names) :
    (name, v) ∈ s.names ∨ ∃ e ∈ events, e.Introduces name v := by
  induction h with
  | nil => exact .inl hv
  | cons hstep _ ih =>
    rcases ih hv with hv | ⟨e, he, hintroduces⟩
    · rcases hstep.names hv with hv | ⟨e, rfl, hintroduces⟩
      · exact .inl hv
      · exact .inr ⟨e, List.mem_append_left _ (by simp), hintroduces⟩
    · exact .inr ⟨e, List.mem_append_right _ he, hintroduces⟩

/-- A history up to something that happens, and from there on. -/
theorem History.split {before after : List ScopeEvent} {e : ScopeEvent}
    (h : s.History (before ++ e :: after) t) :
    ∃ u w, s.History before u ∧ u.Proceeds (some e) w ∧ w.History after t := by
  generalize hevents : before ++ e :: after = events at h
  induction h generalizing before with
  | nil => simp at hevents
  | @cons s u t first events hstep hrest ih =>
    cases first with
    | none =>
      obtain ⟨v, w, hbefore, he, hafter⟩ := ih hevents
      exact ⟨v, w, .cons hstep hbefore, he, hafter⟩
    | some first =>
      cases before with
      | nil =>
        obtain ⟨rfl, rfl⟩ := List.cons.inj hevents
        exact ⟨s, u, .nil, hstep, hrest⟩
      | cons first' before =>
        obtain ⟨rfl, hbehind⟩ := List.cons.inj hevents
        obtain ⟨v, w, hbefore, he, hafter⟩ := ih hbehind
        exact ⟨v, w, .cons hstep hbefore, he, hafter⟩

/-- What is used for a name is what the name refers to. -/
theorem Proceeds.found {name : String} {v : Variable} (h : s.Proceeds (some (.used name v)) t) :
    s.findVariable? name = some v := by
  cases h <;> assumption

/-! ## Instructions with slots -/

theorem accessed_load (v : Variable) : v.load.accessed? = some v.slot := by
  unfold Variable.load
  split <;> simp_all [Instruction.accessed?]

theorem accessed_store (v : Variable) : v.store.accessed? = some v.slot := by
  unfold Variable.store
  split <;> simp_all [Instruction.accessed?]

/-- A new instruction with a slot concerns a variable with a name or the temporary that is new. -/
theorem Proceeds.accessed {e : Option ScopeEvent} (h : s.Proceeds e t) {i : Instruction} {slot : Slot}
    (hi : i ∈ t.assembler.method.body.instructions) (hslot : i.accessed? = some slot) :
    i ∈ s.assembler.method.body.instructions ∨ (∃ x ∈ s.names, x.2.slot = slot) ∨
      ∃ x, e = some x ∧ x.slot? = some slot := by
  have hadded : ∀ {ts : List TargetType} {code : List Instruction},
      i ∈ (s.append ts code).assembler.method.body.instructions →
      i ∈ s.assembler.method.body.instructions ∨ i ∈ code := by
    intro ts code hi
    simpa [append] using hi
  cases h with
  | reserve | openLoop | closeLoop | openBlock | closeBlock | parameter | declare => exact .inl hi
  | binds h => exact .inl (h.instructions ▸ hi)
  | code hcode =>
    refine (hadded hi).imp_right fun hi => ?_
    rw [hcode i hi] at hslot
    cases hslot
  | temporary hcode =>
    refine (hadded hi).imp_right fun hi => .inr ⟨_, rfl, ?_⟩
    rw [hcode i hi slot hslot]
    rfl
  | load hv =>
    refine (hadded hi).imp_right fun hi => .inl ⟨_, mem_names_of_findVariable? hv, ?_⟩
    rw [List.mem_singleton.1 hi, accessed_load] at hslot
    exact Option.some.inj hslot
  | store hv =>
    refine (hadded hi).imp_right fun hi => .inl ⟨_, mem_names_of_findVariable? hv, ?_⟩
    rw [List.mem_singleton.1 hi, accessed_store] at hslot
    exact Option.some.inj hslot

/-- An instruction with a slot is old, or concerns a variable that had a name in the beginning or got its
slot since. -/
theorem History.accessed {events : List ScopeEvent} (h : s.History events t) {i : Instruction}
    {slot : Slot} (hi : i ∈ t.assembler.method.body.instructions) (hslot : i.accessed? = some slot) :
    i ∈ s.assembler.method.body.instructions ∨ (∃ x ∈ s.names, x.2.slot = slot) ∨
      ∃ e ∈ events, e.slot? = some slot := by
  induction h with
  | nil => exact .inl hi
  | cons hstep _ ih =>
    rcases ih hi with hi | ⟨⟨name, v⟩, hv, rfl⟩ | ⟨e, he, hgiven⟩
    · rcases hstep.accessed hi hslot with hi | hnamed | ⟨e, rfl, hgiven⟩
      · exact .inl hi
      · exact .inr (.inl hnamed)
      · exact .inr (.inr ⟨e, List.mem_append_left _ (by simp), hgiven⟩)
    · rcases hstep.names hv with hv | ⟨e, rfl, hintroduces⟩
      · exact .inr (.inl ⟨_, hv, rfl⟩)
      · exact .inr (.inr ⟨e, List.mem_append_left _ (by simp), hintroduces.slot?⟩)
    · exact .inr (.inr ⟨e, List.mem_append_right _ he, hgiven⟩)

/-- A method that was made from nothing allots. -/
theorem History.allots {signature : FunctionSignature} {functions : FunctionTable}
    {events : List ScopeEvent} (h : (Scope.begin signature functions).History events t) :
    t.assembler.method.Allots events := by
  refine ⟨?_, ?_, ?_, ?_⟩
  · obtain ⟨added, hadded, hentries⟩ := numbers_parameters.history h
    have hadded : t.assembler.method.parameters = added := hadded
    rw [hadded, hentries]
    simp [Scope.begin, Assembler.begin, Method.declare]
  · obtain ⟨added, hadded, hentries⟩ := numbers_locals.history h
    have hadded : t.assembler.method.locals.toList = added := hadded
    rw [hadded, hentries]
    simp [Scope.begin, Assembler.begin, Method.declare]
  · rintro before name v after rfl
    obtain ⟨u, w, hbefore, hused, _⟩ := h.split
    rcases hbefore.names (mem_names_of_findVariable? hused.found) with hv | hintroduced
    · cases hv
    · exact hintroduced
  · intro i hi slot hslot
    rcases h.accessed hi hslot with hi | ⟨x, hx, _⟩ | hgiven
    · simp [Scope.begin, Assembler.begin, Method.declare] at hi
    · cases hx
    · exact hgiven

end Scope

/-! ## Slots of a method that is not too large -/

section

variable {α : Type} {slot : UInt16 → Slot} {entries : List α}

theorem mem_numbered {x : α} {y : Slot}
    (h : (y, x) ∈ entries.mapIdx fun index x => (slot (UInt16.ofNat index), x))
    (hlength : entries.length ≤ UInt16.size) : ∃ index, y = slot index ∧ entries[index.toNat]? = some x := by
  obtain ⟨index, hindex, heq⟩ := List.mem_mapIdx.1 h
  obtain ⟨rfl, rfl⟩ := Prod.mk.inj heq
  refine ⟨UInt16.ofNat index, rfl, ?_⟩
  rw [UInt16.toNat_ofNat_of_lt' (hindex.trans_le hlength), List.getElem?_eq_getElem hindex]

theorem nodup_numbered (hslot : Function.Injective slot) (hlength : entries.length ≤ UInt16.size) :
    ((entries.mapIdx fun index x => (slot (UInt16.ofNat index), x)).map (·.1)).Nodup := by
  rw [List.nodup_iff_injective_get]
  intro i j hij
  have hi := i.isLt
  have hj := j.isLt
  simp only [List.length_map, List.length_mapIdx] at hi hj
  simp only [List.get_eq_getElem, List.getElem_map, List.getElem_mapIdx] at hij
  have hnumbers := congrArg UInt16.toNat (hslot hij)
  rw [UInt16.toNat_ofNat_of_lt' (hi.trans_le hlength),
    UInt16.toNat_ofNat_of_lt' (hj.trans_le hlength)] at hnumbers
  exact Fin.ext hnumbers

end

/-- A method that allots tells its slots apart, if it is not too large. -/
theorem Method.Allots.separates {m : Method} {events : List ScopeEvent} (h : m.Allots events)
    (hparameters : m.parameters.length ≤ UInt16.size) (hlocals : m.locals.size ≤ UInt16.size) :
    m.Separates events := by
  rw [← Array.length_toList] at hlocals
  have hparameter : ∀ slot p, (slot, p) ∈ events.filterMap ScopeEvent.parameter? →
      m.entryAt? slot = some (p.name, p.type) := by
    intro slot p hp
    rw [h.parameters] at hp
    obtain ⟨index, rfl, hentry⟩ := mem_numbered hp hparameters
    exact congrArg (·.map fun p => (p.name, p.type)) hentry
  have hvariable : ∀ slot v, (slot, v) ∈ events.filterMap ScopeEvent.local? →
      m.entryAt? slot = some (v.name, v.type) := by
    intro slot v hv
    rw [h.locals] at hv
    obtain ⟨index, rfl, hentry⟩ := mem_numbered hv hlocals
    rw [Array.getElem?_toList] at hentry
    exact congrArg (·.map fun v => (v.name, v.type)) hentry
  refine ⟨?_, ?_, hparameter, hvariable, ?_⟩
  · rw [h.parameters]
    exact nodup_numbered (fun _ _ heq => Slot.parameter.inj heq) hparameters
  · rw [h.locals]
    exact nodup_numbered (fun _ _ heq => Slot.local.inj heq) hlocals
  · intro name v hused
    obtain ⟨before, after, rfl⟩ := List.append_of_mem hused
    obtain ⟨e, he, target, htarget, hintroduced⟩ := h.used before name v after rfl
    have hmem : e ∈ before ++ .used name v :: after := List.mem_append_left _ he
    refine ⟨target, htarget, ?_⟩
    rcases hintroduced with rfl | rfl
    · exact hvariable _ _ (List.mem_filterMap.2 ⟨_, hmem, rfl⟩)
    · exact hparameter _ _ (List.mem_filterMap.2 ⟨_, hmem, rfl⟩)

/-! ## Compiled functions -/

/-- The method of a function that is added is in the module. -/
theorem Program.Adds.method_mem {p q : Program} {f : CompiledFunction} (h : p.Adds f q) :
    f.method ∈ q.module.methods := by
  cases h with
  | function | entry => exact Array.mem_push_self
  | started => exact Array.mem_push.2 (.inl Array.mem_push_self)

/-- A compiled function has a history that tells what its body says, and allots. -/
theorem CompiledFunction.allots (f : CompiledFunction) : ∃ events t,
    (Scope.begin f.signature f.functions).History events t ∧ t.assembler.method = f.method ∧
      events.filterMap ScopeEvent.name? = f.unit.body.events true ∧ f.method.Allots events := by
  obtain ⟨t, ⟨events, hevents, hnames⟩, hmethod⟩ := f.history
  exact ⟨events, t, hevents, hmethod, hnames, hmethod ▸ hevents.allots⟩

/-- Every function definition that compiles is added with a method whose slots are given in order, for
whatever its body says. As long as there are not too many, no two parameters have the same slot, no two
local variables or temporaries have the same slot, and what a name is read or stored through is the slot of
the entry that was made for the variable. -/
theorem FunctionDefinition.compile_slots {d : FunctionDefinition} {p q : Program}
    (h : Yields d.compile p () q) : ∃ f : CompiledFunction, ∃ events t,
      FunctionUnit.ofDefinition d = .ok f.unit ∧ p.Adds f q ∧
      (Scope.begin f.signature f.functions).History events t ∧ t.assembler.method = f.method ∧
      events.filterMap ScopeEvent.name? = f.unit.body.events true ∧ f.method.Allots events ∧
      (f.method.parameters.length ≤ UInt16.size → f.method.locals.size ≤ UInt16.size →
        f.method.Separates events) := by
  unfold compile at h
  simp only [bind_iff, Build.yields_ofExcept] at h
  obtain ⟨u, _, ⟨hu, rfl⟩, hu'⟩ := h
  obtain ⟨f, rfl, _, hadds⟩ := FunctionUnit.adds_compile hu'
  obtain ⟨events, t, hevents, hmethod, hnames, hallots⟩ := f.allots
  exact ⟨f, events, t, hu, hadds, hevents, hmethod, hnames, hallots, hallots.separates⟩

/-- A function with a local variable, another one that hides the parameter, and a temporary. -/
def FunctionDefinition.shadowing : FunctionDefinition :=
  Construct.intFunction "shadowing"
    (some (Construct.parameterList [Construct.namedParameter Construct.intSpecifier 0 "a"] false))
    [Construct.declare Construct.intSpecifier 0 "b" (some (Construct.name "a")),
      Construct.block
        [Construct.declare (Construct.specifier .long) 0 "a" (some (Construct.name "b")),
          Construct.evaluate (Construct.assign none (Construct.name "b")
            (Construct.binary (.arithmetic .add) (Construct.name "b") (Construct.name "a")))],
      Construct.ret (some (Construct.name "b"))]

/-- The slots of that function are told apart. -/
theorem FunctionDefinition.compile_shadowing :
    ∃ q, Yields shadowing.compile (.empty "shadowing") () q ∧ ∃ f : CompiledFunction, ∃ events,
      (Program.empty "shadowing").Adds f q ∧ f.method.parameters.length = 1 ∧ f.method.locals.size = 3 ∧
        events.filterMap ScopeEvent.name? = f.unit.body.events true ∧ f.method.Separates events := by
  have hcompiles : ((shadowing.compile (.empty "shadowing")).1.toOption.isSome &&
      (shadowing.compile (.empty "shadowing")).2.module.methods.all fun m =>
        m.parameters.length == 1 && m.locals.size == 3) = true := by decide +kernel
  generalize hresult : shadowing.compile (.empty "shadowing") = result at hcompiles
  obtain ⟨r, q⟩ := result
  rw [Bool.and_eq_true] at hcompiles
  obtain ⟨⟨⟩, hr⟩ := Option.isSome_iff_exists.1 hcompiles.1
  obtain rfl : r = .ok () := Except.of_toOption hr
  have hyields : Yields shadowing.compile (.empty "shadowing") () q := hresult
  obtain ⟨f, events, -, -, hadds, -, -, hnames, -, hseparates⟩ := compile_slots hyields
  have hmethod := Array.all_eq_true_iff_forall_mem.1 hcompiles.2 f.method hadds.method_mem
  simp only [Bool.and_eq_true, beq_iff_eq] at hmethod
  exact ⟨q, hyields, f, events, hadds, hmethod.1, hmethod.2, hnames,
    hseparates (by rw [hmethod.1]; decide) (by rw [hmethod.2]; decide)⟩

/-! ## Slots of a method that is too large -/

/-- A function with a number of variables, each in a block of its own. -/
def FunctionDefinition.crowd (count : Nat) : FunctionDefinition :=
  Construct.function [Construct.voidSpecifier]
    (Construct.functionDeclarator "crowd" (some Construct.voidParameters))
    (Construct.block (List.replicate count
      (Construct.block [Construct.declare Construct.intSpecifier 0 "x" none])))

namespace Body

/-- A block with a variable. -/
def lonely : Body := .block [.declare [⟨"x", .int, none, .unknown⟩]]

/-- The entry of that variable. -/
def lonelyVariable : LocalVariable := ⟨some "x", .int32, false⟩

theorem toBody_lonely : ∀ count,
    Statement.listToBody "crowd" (List.replicate count
      (Construct.block [Construct.declare Construct.intSpecifier 0 "x" none])) =
        .ok (List.replicate count lonely)
  | 0 => rfl
  | count + 1 => by
    rw [List.replicate_succ, Statement.listToBody, toBody_lonely count]
    rfl

theorem returns_lonely : ∀ count, anyReturns (List.replicate count lonely) = false
  | 0 => rfl
  | count + 1 => returns_lonely count

end Body

/-- A scope with more entries of local variables. -/
def Scope.crowded (s : Scope) (count : Nat) : Scope :=
  { s with assembler := { s.assembler with method := { s.assembler.method with
      locals := s.assembler.method.locals ++ Array.replicate count Body.lonelyVariable } } }

/-- Blocks with a variable add their entries and nothing else. -/
theorem Body.yields_lonely : ∀ (count : Nat) (s : Scope),
    Yields (compileAll (List.replicate count lonely)) s () (s.crowded count)
  | 0, s => by
    have hs : s.crowded 0 = s := by simp [Scope.crowded]
    rw [hs]
    rfl
  | count + 1, s => by
    have hfirst : Yields lonely.compile s () (s.crowded 1) := rfl
    have hs : (s.crowded 1).crowded count = s.crowded (count + 1) := by
      simp [Scope.crowded, Nat.add_comm count, ← Array.replicate_append_replicate]
    rw [List.replicate_succ, compileAll, bind_iff, ← hs]
    exact ⟨(), _, hfirst, yields_lonely count _⟩

/-- That function, read. -/
def FunctionUnit.crowd (count : Nat) : FunctionUnit :=
  ⟨"crowd", .void, some .void, .block (List.replicate count Body.lonely), .unknown⟩

theorem FunctionUnit.ofDefinition_crowd (count : Nat) :
    ofDefinition (.crowd count) = .ok (crowd count) := by
  have hbody : (FunctionDefinition.crowd count).body.toBody "crowd" =
      .ok (.block (List.replicate count Body.lonely)) := by
    show (Statement.listToBody "crowd" _ >>= fun bodies => pure (Body.block bodies)) = _
    rw [Body.toBody_lonely]
    rfl
  show ((FunctionDefinition.crowd count).body.toBody "crowd" >>= fun body => _) = _
  rw [hbody]
  rfl

theorem FunctionUnit.method_crowd (count : Nat) (signature : FunctionSignature)
    (functions : FunctionTable) : ∃ m, (crowd count).method signature functions = .ok m ∧
      m.locals = Array.replicate count Body.lonelyVariable := by
  let s := Scope.begin signature functions
  have hbody : Yields (crowd count).body.compile s () (s.openBlock.crowded count).closeBlock := by
    have hblock := Body.yields_lonely count s.openBlock
    unfold Yields at hblock ⊢
    simp [crowd, Body.compile, Emit.withBlock, Emit.bracket, hblock]
  have hepilogue : (crowd count).epilogue = [.ret] := by
    unfold epilogue crowd
    rw [Body.returns, Body.returns_lonely]
    rfl
  have hemit : Yields (crowd count).emit s () ((s.openBlock.crowded count).closeBlock.append [] [.ret]) := by
    unfold emit
    rw [bind_iff]
    refine ⟨(), s, rfl, ?_⟩
    rw [bind_iff, hepilogue]
    exact ⟨(), _, hbody, rfl⟩
  unfold method
  rw [show (crowd count).emit s = _ from hemit]
  refine ⟨_, rfl, ?_⟩
  simp [s, Scope.crowded, Scope.append, Scope.closeBlock, Scope.openBlock, Scope.begin,
    Assembler.begin, Method.declare]

/-- That function compiles, whatever the number of variables, and each has an entry of its own. -/
theorem FunctionDefinition.compile_crowd (count : Nat) :
    ∃ q, Yields (crowd count).compile (.empty "crowd") () q ∧
      ∀ m ∈ q.module.methods, m.locals = Array.replicate count Body.lonelyVariable := by
  let signature : FunctionSignature :=
    ⟨"crowd", .void, some [], false, ⟨"crowd", .void, []⟩⟩
  obtain ⟨m, hm, hlocals⟩ := FunctionUnit.method_crowd count signature {}
  refine ⟨(Program.empty "crowd").addFunction signature m, ?_, ?_⟩
  · unfold compile
    rw [bind_iff]
    refine ⟨_, _, Build.yields_ofExcept.2 ⟨FunctionUnit.ofDefinition_crowd count, rfl⟩, ?_⟩
    unfold FunctionUnit.compile
    simp only [bind_iff, Build.yields_ofExcept, get_iff]
    exact ⟨.void, _, ⟨rfl, rfl⟩, _, _, ⟨rfl, rfl⟩, false, _, ⟨rfl, rfl⟩, signature, _, ⟨rfl, rfl⟩, _, _,
      ⟨rfl, rfl⟩, m, _, ⟨hm, rfl⟩, none, _, ⟨rfl, rfl⟩, (), _, rfl, rfl⟩
  · intro method hmethod
    have hmethod : method ∈ #[m] := hmethod
    rw [Array.mem_singleton.1 hmethod, hlocals]

/-- Two variables of a function with enough of them have the same slot. -/
theorem FunctionDefinition.shares_slot : ∃ q, Yields (crowd 65537).compile (.empty "crowd") () q ∧
    ∃ f : CompiledFunction, ∃ events t, (Program.empty "crowd").Adds f q ∧
      (Scope.begin f.signature f.functions).History events t ∧ t.assembler.method = f.method ∧
      (events.filterMap ScopeEvent.local?)[0]? = some (.local 0, Body.lonelyVariable) ∧
      (events.filterMap ScopeEvent.local?)[65536]? = some (.local 0, Body.lonelyVariable) := by
  obtain ⟨q, hyields, hlocals⟩ := compile_crowd 65537
  refine ⟨q, hyields, ?_⟩
  unfold compile at hyields
  simp only [bind_iff, Build.yields_ofExcept] at hyields
  obtain ⟨u, _, ⟨hu, rfl⟩, hu'⟩ := hyields
  obtain ⟨f, rfl, _, hadds⟩ := FunctionUnit.adds_compile hu'
  obtain ⟨events, t, hevents, hmethod, -, hallots⟩ := f.allots
  refine ⟨f, events, t, hadds, hevents, hmethod, ?_, ?_⟩
  · rw [hallots.locals, hlocals f.method hadds.method_mem, Array.toList_replicate,
      List.getElem?_mapIdx, List.getElem?_replicate]
    rfl
  · rw [hallots.locals, hlocals f.method hadds.method_mem, Array.toList_replicate,
      List.getElem?_mapIdx, List.getElem?_replicate]
    rfl

end ManagedC
