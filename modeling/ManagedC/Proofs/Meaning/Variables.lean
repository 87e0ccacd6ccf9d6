import ManagedC.Proofs.Emit.Calls
import ManagedC.Proofs.Meaning.Typing

/-!
# Where the variables of a call are kept

Every name of a scope stands for a slot of its own. While the code of a function runs, the variables that
the rules of the language speak of are in the slots of the names, in the same order
(`Activation.Holds`). The slots above those of the names are free: what is stored there changes no
variable. Main statements: what a name reads (`Activation.Holds.read`), what a store through it does
(`Activation.Holds.write`), and that a declared variable gets a slot of its own
(`Activation.Holds.declare`).
-/

namespace ManagedC

open Meaning

/-- The slot is one of a parameter or of the first so many local variables. -/
def Slot.Below (count : Nat) : Slot → Prop
  | .parameter _ => True
  | .local index => index.toNat < count

theorem Slot.Below.mono {slot : Slot} {m n : Nat} (h : slot.Below m) (hmn : m ≤ n) : slot.Below n := by
  cases slot with
  | parameter => trivial
  | «local» => exact Nat.lt_of_lt_of_le h hmn

/-- The scope is one of the function, and each name has a slot of its own among those that are taken. -/
structure Scope.Sound (F : CompiledFunction) (s : Scope) : Prop where
  /-- The function itself can be called. -/
  signature : s.signature = F.signature
  /-- So can those compiled before it. -/
  functions : s.functions = F.functions
  slots : (s.names.map (·.2.slot)).Nodup
  below : ∀ p ∈ s.names, p.2.slot.Below s.assembler.method.locals.size

namespace Scope.Sound

variable {s t : Scope} {F : CompiledFunction}

theorem emits (h : s.Sound F) (he : s.Emits t) : t.Sound F := by
  have hlocals := he.method.locals_le
  refine ⟨?_, ?_, ?_, fun p hp => ?_⟩
  · rw [he.eq]
    exact h.signature
  · rw [he.eq]
    exact h.functions
  · rw [he.names]
    exact h.slots
  · rw [he.names] at hp
    exact (h.below p hp).mono hlocals

theorem openBlock (h : s.Sound F) : s.openBlock.Sound F :=
  ⟨h.signature, h.functions, h.slots, h.below⟩

theorem openLoop (h : s.Sound F) (labels : LoopLabels) : (s.openLoop labels).Sound F :=
  ⟨h.signature, h.functions, h.slots, h.below⟩

/-- A declared variable gets a slot of its own. -/
theorem declareVariable (h : s.Sound F) (hlt : s.assembler.method.locals.size < 2 ^ 16) (name : String)
    (type : CType) (target : TargetType) : (s.declareVariable name type target).Sound F := by
  have hnext : s.nextSlot.toNat = s.assembler.method.locals.size := UInt16.toNat_ofNat_of_lt' hlt
  have hsize : (s.declareVariable name type target).assembler.method.locals.size =
      s.assembler.method.locals.size + 1 := Array.size_push _
  refine ⟨h.signature, h.functions, ?_, ?_⟩
  · rw [names_declareVariable, List.map_cons, List.nodup_cons]
    refine ⟨fun hmem => ?_, h.slots⟩
    obtain ⟨p, hp, hslot⟩ := List.mem_map.1 hmem
    have hbelow := h.below p hp
    rw [hslot] at hbelow
    exact Nat.lt_irrefl _ (hnext ▸ hbelow)
  · rw [names_declareVariable, hsize]
    refine List.forall_mem_cons.2 ⟨?_, fun p hp => (h.below p hp).mono (Nat.le_succ _)⟩
    show s.nextSlot.toNat < _
    omega

end Scope.Sound

/-! ## Slots -/

/-- The slot is one of the method and has a type. A local variable there does not pin. -/
inductive Method.Declares (m : Method) : Slot → TargetType → Prop where
  | parameter {index : UInt16} {p : MethodParameter} :
    m.parameters[index.toNat]? = some p → Declares m (.parameter index) p.type
  | local {index : UInt16} {v : LocalVariable} :
    m.locals[index.toNat]? = some v → v.pinned = false → Declares m (.local index) v.type

namespace Activation

variable {a b : Activation} {slot slot' : Slot} {v : Value}

/-- What is kept in a slot. -/
def kept? (a : Activation) : Slot → Option Value
  | .parameter index => a.arguments[index.toNat]?
  | .local index => a.locals[index.toNat]?

/-- The call with something else kept in a slot. -/
def keep (a : Activation) (v : Value) : Slot → Activation
  | .parameter index => { a with arguments := a.arguments.setIfInBounds index.toNat v }
  | .local index => { a with locals := a.locals.setIfInBounds index.toNat v }

theorem kept?_keep_self (h : (a.kept? slot).isSome) : (a.keep v slot).kept? slot = some v := by
  cases slot with
  | parameter index | «local» index =>
    obtain ⟨_, hv⟩ := Option.isSome_iff_exists.1 h
    exact Array.getElem?_setIfInBounds_self_of_lt (Array.getElem?_eq_some_iff.1 hv).1

theorem kept?_keep_of_ne (h : slot ≠ slot') : (a.keep v slot).kept? slot' = a.kept? slot' := by
  cases slot with
  | parameter i =>
    cases slot' with
    | parameter j =>
      exact Array.getElem?_setIfInBounds_ne fun hij => h (congrArg _ (UInt16.toNat_inj.1 hij))
    | «local» j => rfl
  | «local» i =>
    cases slot' with
    | parameter j => rfl
    | «local» j =>
      exact Array.getElem?_setIfInBounds_ne fun hij => h (congrArg _ (UInt16.toNat_inj.1 hij))

@[simp] theorem method_keep (a : Activation) (v : Value) (slot : Slot) :
    (a.keep v slot).method = a.method := by
  cases slot <;> rfl

@[simp] theorem pending_keep (a : Activation) (v : Value) (slot : Slot) :
    (a.keep v slot).pending = a.pending := by
  cases slot <;> rfl

@[simp] theorem stack_keep (a : Activation) (v : Value) (slot : Slot) :
    (a.keep v slot).stack = a.stack := by
  cases slot <;> rfl

@[simp] theorem pc_keep (a : Activation) (v : Value) (slot : Slot) : (a.keep v slot).pc = a.pc := by
  cases slot <;> rfl

@[simp] theorem size_locals_keep (a : Activation) (v : Value) (slot : Slot) :
    (a.keep v slot).locals.size = a.locals.size := by
  cases slot <;> simp [keep]

/-- A variable is pushed. -/
theorem follows_load {x : Variable} (h : a.kept? x.slot = some v) (s : Store) :
    a.Follows s [x.load] { a with stack := v :: a.stack, pc := a.pc + 1 } := by
  obtain ⟨slot, type⟩ := x
  cases slot with
  | parameter index => exact .cons rfl (.loadArgument h) rfl .nil
  | «local» index => exact .cons rfl (.loadLocal h) rfl .nil

/-- A value is stored in a variable. -/
theorem follows_store {x : Variable} {target : TargetType} {rest : List Value}
    (ha : a.stack = v :: rest) (hx : a.method.Declares x.slot target) (s : Store) :
    a.Follows s [x.store]
      ({ a with stack := rest, pc := a.pc + 1 }.keep (v.narrow target) x.slot) := by
  obtain ⟨slot, type⟩ := x
  cases hx with
  | parameter hp => exact .cons rfl (.storeArgument ha hp) rfl .nil
  | «local» hl hpinned =>
    refine .cons rfl (.storeLocal ha hl ?_) rfl .nil
    rw [hpinned]
    rfl

end Activation

/-! ## Variables -/

/-- A variable is kept in the slot that a name stands for. -/
structure Meaning.Cell.KeptIn (a : Activation) (c : Cell) (p : String × Variable) : Prop where
  /-- The name is that of the variable. -/
  name : p.1 = c.name
  /-- So is the type. -/
  type : p.2.type = c.width.type
  /-- The slot has the type of the variable. -/
  declared : a.method.Declares p.2.slot c.width.target
  /-- The value is in the slot, once there is one. -/
  kept : ∃ v, a.kept? p.2.slot = some v ∧ ∀ n, c.content = some n → v = n.1.toValue

/-- A call of a function holds the variables in the slots that names stand for. -/
structure Activation.Holds (F : CompiledFunction) (names : Names) (f : Frame) (a : Activation) :
    Prop where
  /-- The method is that of the function. -/
  method : a.method = F.method
  /-- There is a value for every local variable of the method. -/
  locals : a.locals.size = F.method.locals.size
  /-- No handler is on its way. -/
  pending : a.pending = []
  cells : List.Forall₂ (Cell.KeptIn a) f names

namespace Meaning.Cell.KeptIn

variable {a b : Activation} {c : Cell} {p : String × Variable}

theorem of_kept (h : c.KeptIn a p) (hm : b.method = a.method)
    (hp : b.kept? p.2.slot = a.kept? p.2.slot) : c.KeptIn b p :=
  ⟨h.name, h.type, hm ▸ h.declared, hp ▸ h.kept⟩

/-- A store to its slot changes the variable. -/
theorem store (h : c.KeptIn a p) (n : Number) :
    (c.store n).KeptIn (a.keep (n.convert c.width).toValue p.2.slot) p := by
  obtain ⟨v, hv, -⟩ := h.kept
  refine ⟨h.name, h.type, ?_, _, Activation.kept?_keep_self (Option.isSome_of_eq_some hv), ?_⟩
  · rw [Activation.method_keep]
    exact h.declared
  · rintro n ⟨⟩
    rfl

theorem forall_of_kept {f : Frame} {names : Names} (h : List.Forall₂ (Cell.KeptIn a) f names)
    (hm : b.method = a.method) (hp : ∀ p ∈ names, b.kept? p.2.slot = a.kept? p.2.slot) :
    List.Forall₂ (Cell.KeptIn b) f names := by
  induction h with
  | nil => exact .nil
  | cons hc _ ih =>
    obtain ⟨hp, hnames⟩ := List.forall_mem_cons.1 hp
    exact .cons (hc.of_kept hm hp) (ih hnames)

/-- What is found under a name is kept in its slot. -/
theorem find {f : Frame} {names : Names} {name : String} {v : Variable}
    (h : List.Forall₂ (Cell.KeptIn a) f names) (hf : f.find? (fun c => c.name == name) = some c)
    (hv : names.lookup name = some v) : c.KeptIn a (name, v) := by
  induction h with
  | nil => cases hf
  | @cons d p f names hd _ ih =>
    obtain ⟨first, w⟩ := p
    obtain rfl : first = d.name := hd.name
    rw [List.find?_cons] at hf
    rw [List.lookup_cons, Bool.beq_comm] at hv
    cases hname : d.name == name with
    | true =>
      rw [hname] at hf hv
      cases hf
      cases hv
      rw [← beq_iff_eq.1 hname]
      exact hd
    | false =>
      rw [hname] at hf hv
      exact ih hf hv

/-- A store through a name changes the variable that the name stands for, and no other. -/
theorem write {f g : Frame} {names : Names} {name : String} {v : Variable} {n m : Number}
    (h : List.Forall₂ (Cell.KeptIn a) f names) (hslots : (names.map (·.2.slot)).Nodup)
    (hf : f.write? name n = some (m, g)) (hv : names.lookup name = some v) :
    ∃ w : Width, v.type = w.type ∧ m = n.convert w ∧ a.method.Declares v.slot w.target ∧
      List.Forall₂ (Cell.KeptIn (a.keep m.toValue v.slot)) g names := by
  induction h generalizing g with
  | nil => cases hf
  | @cons d p f names hd hrest ih =>
    obtain ⟨first, x⟩ := p
    obtain rfl : first = d.name := hd.name
    rw [List.map_cons, List.nodup_cons] at hslots
    unfold Frame.write? at hf
    rw [List.lookup_cons, Bool.beq_comm] at hv
    cases hname : d.name == name with
    | true =>
      rw [hname] at hf hv
      cases hf
      cases hv
      refine ⟨d.width, hd.type, rfl, hd.declared, .cons (hd.store n) ?_⟩
      refine forall_of_kept hrest (Activation.method_keep ..) fun p hp => ?_
      refine Activation.kept?_keep_of_ne fun heq => hslots.1 ?_
      rw [heq]
      exact List.mem_map_of_mem hp
    | false =>
      rw [hname] at hf hv
      obtain ⟨⟨_, g⟩, hg, hmg⟩ := Option.map_eq_some_iff.1 hf
      cases hmg
      obtain ⟨w, htype, rfl, hdeclared, hcells⟩ := ih hslots.2 hg hv
      refine ⟨w, htype, rfl, hdeclared, .cons (hd.of_kept (Activation.method_keep ..) ?_) hcells⟩
      refine Activation.kept?_keep_of_ne fun heq => hslots.1 ?_
      obtain ⟨before, after, rfl, -⟩ := List.lookup_eq_some_iff.1 hv
      dsimp only at heq ⊢
      rw [← heq]
      exact List.mem_map_of_mem (List.mem_append_right _ List.mem_cons_self)

end Meaning.Cell.KeptIn

namespace Activation.Holds

variable {a b : Activation} {F : CompiledFunction} {names : Names} {f g inner : Frame} {s t : Scope}
  {name : String} {n m : Number} {v : Variable}

theorem length (h : a.Holds F names f) : f.length = names.length := h.cells.length_eq

/-- What is stored above the slots of the names changes no variable. -/
theorem of_kept (h : a.Holds F names f) (hm : b.method = a.method)
    (hlocals : b.locals.size = a.locals.size) (hpending : b.pending = a.pending)
    (hp : ∀ p ∈ names, b.kept? p.2.slot = a.kept? p.2.slot) : b.Holds F names f :=
  ⟨hm.trans h.method, hlocals.trans h.locals, hpending.trans h.pending,
    Cell.KeptIn.forall_of_kept h.cells hm hp⟩

/-- The stack and the place of control have nothing to do with the variables. -/
theorem move (h : a.Holds F names f) (stack : List Value) (pc : Nat) :
    { a with stack := stack, pc := pc }.Holds F names f :=
  h.of_kept rfl rfl rfl fun _ _ => rfl

theorem keep_move {w : Value} {slot : Slot} (h : (a.keep w slot).Holds F names f)
    (stack : List Value) (pc : Nat) :
    ({ a with stack := stack, pc := pc }.keep w slot).Holds F names f := by
  cases slot <;> exact h.move stack pc

/-- The value of a variable is in the slot of its name. -/
theorem read (h : a.Holds F names f) (hf : f.read? name = some n) (hv : names.lookup name = some v) :
    v.type = n.width.type ∧ a.kept? v.slot = some n.toValue := by
  obtain ⟨c, hc, hn⟩ := Option.bind_eq_some_iff.1 hf
  obtain ⟨⟨_, hwidth⟩, hcontent, rfl⟩ := Option.map_eq_some_iff.1 hn
  have hkept := Cell.KeptIn.find h.cells hc hv
  obtain ⟨_, hslot, hvalue⟩ := hkept.kept
  rw [hvalue _ hcontent] at hslot
  refine ⟨?_, hslot⟩
  rw [hkept.type]
  exact congrArg _ hwidth.symm

/-- A store through a name assigns to the variable. -/
theorem write (h : a.Holds F names f) (hslots : (names.map (·.2.slot)).Nodup)
    (hf : f.write? name n = some (m, g)) (hv : names.lookup name = some v) :
    ∃ w : Width, v.type = w.type ∧ m = n.convert w ∧ a.method.Declares v.slot w.target ∧
      (a.keep m.toValue v.slot).Holds F names g := by
  obtain ⟨w, htype, hm, hdeclared, hcells⟩ := Cell.KeptIn.write h.cells hslots hf hv
  exact ⟨w, htype, hm, hdeclared, (method_keep ..).trans h.method, (size_locals_keep ..).trans h.locals,
    (pending_keep ..).trans h.pending, hcells⟩

/-- The latest variables can be forgotten. -/
theorem drop (h : a.Holds F names (inner ++ g)) {outer : Names} (hnames : outer <:+ names)
    (hlength : g.length = outer.length) : a.Holds F outer g := by
  obtain ⟨extra, rfl⟩ := hnames
  refine ⟨h.method, h.locals, h.pending, ?_⟩
  have hcells := h.cells
  have hextra : inner.length = extra.length := by
    have := h.length
    rw [List.length_append, List.length_append] at this
    omega
  have hdrop := List.forall₂_drop inner.length hcells
  rw [List.drop_left, hextra, List.drop_left] at hdrop
  exact hdrop

/-- A declared variable has a slot of its own, in which there is something. -/
theorem declare (h : a.Holds F s.names f) {w : Width}
    (hM : (s.declareVariable name w.type w.target).assembler.method.Extends F.method)
    (hlt : s.assembler.method.locals.size < 2 ^ 16) :
    a.Holds F (s.declareVariable name w.type w.target).names (⟨name, w, none⟩ :: f) := by
  have hnext : s.nextSlot.toNat = s.assembler.method.locals.size := UInt16.toNat_ofNat_of_lt' hlt
  have hdeclared : F.method.locals[s.nextSlot.toNat]? = some ⟨some name, w.target, false⟩ := by
    refine hM.variableAt ?_
    rw [hnext]
    exact Array.getElem?_push_size
  have hslot : s.nextSlot.toNat < a.locals.size := by
    rw [h.locals]
    exact (Array.getElem?_eq_some_iff.1 hdeclared).1
  have hdeclares : a.method.Declares (.local s.nextSlot) w.target := by
    rw [h.method]
    exact @Method.Declares.local _ _ ⟨some name, w.target, false⟩ hdeclared rfl
  obtain ⟨v, hv⟩ : ∃ v, a.locals[s.nextSlot.toNat]? = some v := ⟨_, Array.getElem?_eq_getElem hslot⟩
  have hcell : Cell.KeptIn a ⟨name, w, none⟩ (name, ⟨.local s.nextSlot, w.type⟩) :=
    ⟨rfl, rfl, hdeclares, v, hv, fun _ hn => absurd hn (by simp)⟩
  rw [Scope.names_declareVariable]
  exact ⟨h.method, h.locals, h.pending, .cons hcell h.cells⟩

end Activation.Holds

end ManagedC
