import ManagedC.Compile.Program
import ManagedC.Proofs.Computation

/-!
# A method under construction only grows

`Method.Extends` is the order on methods under construction: instructions and local variables are
appended, bound labels stay where they are, and what is appended is of the kind that compiled code
consists of (`Instruction.isPlain`). `Scope.Emits` says that nothing but the method under construction
changed, and that it grew. Main statements: straight-line code with temporaries is emitted in that sense
(`Scope.emits_append`), reserved labels as well (`Scope.emits_reserve`), and one emission after another is
an emission (`Scope.Emits.trans`), so that what is known of a method under construction holds of the
finished one.
-/

namespace ManagedC

open Yields

namespace Instruction

/-- Whether compiled code of a function may contain the instruction. There are no managed objects in
it and no protected regions. -/
def isPlain : Instruction → Bool
  | .callHelper _ | .newArray _ | .arrayLength | .elementAddress _ | .leave _ | .endFinally => false
  | _ => true

end Instruction

namespace Method

/-- A method under construction and the same method later on. -/
structure Extends (m M : Method) : Prop where
  name : M.name = m.name
  /-- The type of the result. -/
  returnType : M.returnType = m.returnType
  handlers : M.body.handlers = m.body.handlers
  parameters : M.parameters = m.parameters
  /-- Instructions are only appended, and only plain ones. -/
  code : ∃ added, M.body.instructions = m.body.instructions ++ added ∧
    ∀ i ∈ added, i.isPlain = true
  /-- Local variables are only appended, and none that pins. -/
  locals : ∃ added, M.locals = m.locals ++ added ∧ ∀ v ∈ added, v.pinned = false
  /-- A bound label stays where it is. -/
  labels : ∀ label offset, m.body.labels.offset? label = some offset →
    M.body.labels.offset? label = some offset

namespace Extends

variable {m m' M : Method}

theorem refl (m : Method) : Extends m m :=
  ⟨rfl, rfl, rfl, rfl, ⟨#[], by simp, by simp⟩, ⟨#[], by simp, by simp⟩,
    fun _ _ h => h⟩

theorem trans (h : Extends m m') (h' : Extends m' M) : Extends m M := by
  obtain ⟨code, hc, hp⟩ := h.code
  obtain ⟨code', hc', hp'⟩ := h'.code
  obtain ⟨locals, hl, hq⟩ := h.locals
  obtain ⟨locals', hl', hq'⟩ := h'.locals
  refine ⟨h'.name.trans h.name, h'.returnType.trans h.returnType, h'.handlers.trans h.handlers,
    h'.parameters.trans h.parameters, ⟨code ++ code', ?_, ?_⟩, ⟨locals ++ locals', ?_, ?_⟩,
    fun l o hlo => h'.labels l o (h.labels l o hlo)⟩
  · rw [hc', hc, Array.append_assoc]
  · intro i hi
    rcases Array.mem_append.1 hi with hi | hi
    · exact hp i hi
    · exact hp' i hi
  · rw [hl', hl, Array.append_assoc]
  · intro v hv
    rcases Array.mem_append.1 hv with hv | hv
    · exact hq v hv
    · exact hq' v hv

/-- An instruction stays where it is. -/
theorem instruction (h : Extends m M) {pc : Nat} {i : Instruction}
    (hi : m.body.instructions[pc]? = some i) : M.body.instructions[pc]? = some i := by
  obtain ⟨code, hc, _⟩ := h.code
  rw [hc, Array.getElem?_append_left (Array.getElem?_eq_some_iff.1 hi).1, hi]

/-- A local variable stays where it is. -/
theorem variableAt (h : Extends m M) {slot : Nat} {v : LocalVariable}
    (hv : m.locals[slot]? = some v) : M.locals[slot]? = some v := by
  obtain ⟨added, hl, _⟩ := h.locals
  rw [hl, Array.getElem?_append_left (Array.getElem?_eq_some_iff.1 hv).1, hv]

theorem size_le (h : Extends m M) : m.body.instructions.size ≤ M.body.instructions.size := by
  obtain ⟨code, hc, _⟩ := h.code
  rw [hc, Array.size_append]
  omega

theorem locals_le (h : Extends m M) : m.locals.size ≤ M.locals.size := by
  obtain ⟨added, hl, _⟩ := h.locals
  rw [hl, Array.size_append]
  omega

end Extends

end Method

namespace LabelTable

theorem lookup_insertEntry_self (label : Label) (offset : Nat) :
    ∀ entries, (insertEntry label offset entries).lookup label = some offset
  | [] => by simp [insertEntry]
  | (l, o) :: rest => by
    unfold insertEntry
    split
    · simp
    · split
      · simp
      · rename_i hne
        have hne : (label == l) = false := by simpa using hne
        rw [List.lookup_cons, hne]
        exact lookup_insertEntry_self label offset rest

theorem lookup_insertEntry_of_ne {label l : Label} (offset : Nat) (h : l ≠ label) :
    ∀ entries : List (Label × Nat), (insertEntry label offset entries).lookup l = entries.lookup l
  | [] => by
    have h : (l == label) = false := by simpa using h
    simp [insertEntry, List.lookup_cons, h]
  | (k, o) :: rest => by
    have h : (l == label) = false := by simpa using h
    unfold insertEntry
    split
    · rw [List.lookup_cons, h]
    · split
      · rename_i heq
        subst heq
        rw [List.lookup_cons, List.lookup_cons, h]
      · rw [List.lookup_cons, List.lookup_cons, lookup_insertEntry_of_ne offset (by simpa using h)]

theorem offset?_insert_self (t : LabelTable) (label : Label) (offset : Nat) :
    (t.insert label offset).offset? label = some offset :=
  lookup_insertEntry_self label offset t.entries

theorem offset?_insert_of_ne (t : LabelTable) {label l : Label} (offset : Nat) (h : l ≠ label) :
    (t.insert label offset).offset? l = t.offset? l :=
  lookup_insertEntry_of_ne offset h t.entries

end LabelTable

namespace Scope

/-- Two states of a scope between which code was emitted, and nothing else changed. -/
structure Emits (s t : Scope) : Prop where
  /-- Only the method under construction differs. -/
  eq : t = { s with assembler := t.assembler }
  method : s.assembler.method.Extends t.assembler.method
  /-- The open regions are the same. -/
  regions : t.assembler.regions = s.assembler.regions

theorem Emits.refl (s : Scope) : Emits s s := ⟨rfl, .refl _, rfl⟩

theorem Emits.trans {s t u : Scope} (h : Emits s t) (h' : Emits t u) : Emits s u := by
  refine ⟨?_, h.method.trans h'.method, h'.regions.trans h.regions⟩
  rw [h'.eq, h.eq]

/-- A scope after straight-line code with some temporaries was emitted. -/
def append (s : Scope) (temporaries : List TargetType) (code : List Instruction) : Scope :=
  { s with assembler := { s.assembler with method := { s.assembler.method with
      locals := s.assembler.method.locals ++
        (temporaries.map fun type => (⟨none, type, false⟩ : LocalVariable)).toArray
      body := { s.assembler.method.body with
        instructions := s.assembler.method.body.instructions ++ code.toArray } } } }

@[simp] theorem append_nil (s : Scope) : s.append [] [] = s := by simp [append]

@[simp] theorem append_append (s : Scope) (ts ts' : List TargetType) (code code' : List Instruction) :
    (s.append ts code).append ts' code' = s.append (ts ++ ts') (code ++ code') := by
  simp [append, Array.append_assoc]

theorem emits_append (s : Scope) (ts : List TargetType) {code : List Instruction}
    (h : ∀ i ∈ code, i.isPlain = true) : s.Emits (s.append ts code) := by
  refine ⟨rfl, ⟨rfl, rfl, rfl, rfl, ⟨code.toArray, rfl, ?_⟩, ⟨_, rfl, ?_⟩,
    fun _ _ hl => hl⟩, rfl⟩
  · intro i hi
    exact h i (List.mem_toArray.1 hi)
  · intro v hv
    obtain ⟨type, _, rfl⟩ := List.mem_map.1 (List.mem_toArray.1 hv)
    rfl

/-- The scope with some more labels handed out. -/
def reserve (s : Scope) (count : Nat) : Scope :=
  { s with assembler := { s.assembler with nextLabel := s.assembler.nextLabel + count } }

theorem emits_reserve (s : Scope) (count : Nat) : s.Emits (s.reserve count) :=
  ⟨rfl, .refl _, rfl⟩

@[simp] theorem reserve_reserve (s : Scope) (m n : Nat) :
    (s.reserve m).reserve n = s.reserve (m + n) := by
  simp [reserve, Nat.add_assoc]

/-- The next label to hand out. -/
abbrev nextLabel (s : Scope) : Label := s.assembler.nextLabel

/-- Behind the first of two branches there is a jump over the second one, unless control cannot get
there. -/
theorem emits_jumpOver (s : Scope) : (s.reserve 1).Emits ((s.reserve 1).append []
    (if s.assembler.isTerminated then [] else [.branch s.nextLabel])) :=
  emits_append _ _ (by split <;> simp [Instruction.isPlain])

/-- The slot that the next local variable gets. -/
def nextSlot (s : Scope) : UInt16 := UInt16.ofNat s.assembler.method.locals.size

/-- The number of the next instruction. -/
abbrev offset (s : Scope) : Nat := s.assembler.offset

/-- A label that was free is bound to the next instruction. -/
structure Binds (s : Scope) (label : Label) (t : Scope) : Prop where
  emits : s.Emits t
  /-- The label stands for the next instruction. -/
  bound : t.assembler.method.body.labels.offset? label = some s.offset
  instructions : t.assembler.method.body.instructions = s.assembler.method.body.instructions
  locals : t.assembler.method.locals = s.assembler.method.locals

theorem Binds.offset {s t : Scope} {label : Label} (h : s.Binds label t) : t.offset = s.offset := by
  show t.assembler.method.body.instructions.size = _
  rw [h.instructions]
  rfl

/-- In the finished method a label stands for the place where it was bound. -/
theorem Binds.target {s t : Scope} {label : Label} {M : Method} (h : s.Binds label t)
    (hM : t.assembler.method.Extends M) : M.body.labels.offset? label = some s.offset :=
  hM.labels _ _ h.bound

theorem Binds.stands {s t : Scope} {label : Label} {M : Method} (h : s.Binds label t)
    (hM : t.assembler.method.Extends M) : M.body.labels.offset? label = some t.offset := by
  rw [h.offset]
  exact h.target hM

end Scope

/-! ## The steps of the assembler -/

namespace Assembly

variable {a b : Assembler}

theorem yields_addParameter {name : Option String} {type : TargetType} {slot : UInt16}
    (h : Yields (addParameter name type) a slot b) :
    slot = UInt16.ofNat a.method.parameters.length ∧ b = a.pushParameter ⟨name, type⟩ := by
  unfold addParameter at h
  simp only [bind_iff, get_iff, modify_iff, pure_iff] at h
  obtain ⟨_, _, ⟨rfl, rfl⟩, _, _, rfl, rfl, rfl⟩ := h
  exact ⟨rfl, rfl⟩

theorem yields_addLocal {name : Option String} {type : TargetType} {pinned : Bool} {slot : UInt16}
    (h : Yields (addLocal name type pinned) a slot b) :
    slot = UInt16.ofNat a.method.locals.size ∧ b = a.pushLocal ⟨name, type, pinned⟩ := by
  unfold addLocal at h
  simp only [bind_iff, get_iff, modify_iff, pure_iff] at h
  obtain ⟨_, _, ⟨rfl, rfl⟩, _, _, rfl, rfl, rfl⟩ := h
  exact ⟨rfl, rfl⟩

theorem yields_newLabel {label : Label} (h : Yields newLabel a label b) :
    label = a.nextLabel ∧ b = { a with nextLabel := label + 1 } := by
  unfold newLabel at h
  simp only [bind_iff, get_iff, modify_iff, pure_iff] at h
  obtain ⟨_, _, ⟨rfl, rfl⟩, _, _, rfl, rfl, rfl⟩ := h
  exact ⟨rfl, rfl⟩

/-- A label that is marked was not bound. -/
theorem yields_mark {label : Label} {u : Unit} (h : Yields (mark label) a u b) :
    a.method.body.labels.offset? label = none ∧ b = a.bind label := by
  unfold mark at h
  simp only [bind_iff, get_iff] at h
  obtain ⟨_, _, ⟨rfl, rfl⟩, h⟩ := h
  split at h
  · simp only [bind_iff, not_throw, false_and, exists_false] at h
  · simp only [bind_iff, set_iff] at h
    obtain ⟨_, _, rfl, h⟩ := h
    split at h
    · exact absurd h not_throw
    · rename_i hfree
      obtain ⟨-, rfl⟩ := pure_iff.1 h
      exact ⟨by simpa [LabelTable.isBound] using hfree, rfl⟩

end Assembly

namespace Emit

variable {α β : Type} {s t : Scope}

/-! ## The primitive steps -/

theorem yields_assemble {step : Assembly α} {a : α} (h : Yields (assemble step) s a t) :
    ∃ assembler, Yields step s.assembler a assembler ∧ t = { s with assembler := assembler } := by
  unfold Yields assemble at h
  unfold Yields
  rcases hs : step s.assembler with ⟨_ | b, assembler⟩
  · rw [hs] at h
    cases h
  · rw [hs] at h
    cases h
    exact ⟨assembler, rfl, rfl⟩

theorem yields_instr {i : Instruction} {u : Unit} :
    Yields (instr i) s u t ↔ t = s.append [] [i] := by
  constructor
  · intro h
    obtain ⟨assembler, hs, rfl⟩ := yields_assemble h
    obtain rfl := modify_iff.1 hs
    simp [Scope.append, Assembler.push, Assembler.withBody]
  · rintro rfl
    simp [instr, Assembly.emit, Scope.append]
    rfl

theorem yields_addTemporary {type : TargetType} {slot : UInt16}
    (h : Yields (addTemporary type) s slot t) : slot = s.nextSlot ∧ t = s.append [type] [] := by
  obtain ⟨assembler, hs, rfl⟩ := yields_assemble h
  obtain ⟨rfl, rfl⟩ := Assembly.yields_addLocal hs
  refine ⟨rfl, ?_⟩
  simp [Scope.append, Assembler.pushLocal]

theorem yields_newLabel {label : Label} :
    Yields newLabel s label t ↔ label = s.nextLabel ∧ t = s.reserve 1 := by
  constructor
  · intro h
    obtain ⟨assembler, hs, rfl⟩ := yields_assemble h
    obtain ⟨rfl, rfl⟩ := Assembly.yields_newLabel hs
    exact ⟨rfl, rfl⟩
  · rintro ⟨rfl, rfl⟩
    rfl

/-- A label that is marked was free and stands for the next instruction from now on. -/
theorem yields_mark {label : Label} {u : Unit} (h : Yields (mark label) s u t) :
    s.Binds label t := by
  obtain ⟨assembler, hs, rfl⟩ := yields_assemble h
  obtain ⟨hfree, rfl⟩ := Assembly.yields_mark hs
  refine ⟨⟨rfl, ⟨rfl, rfl, rfl, rfl, ⟨#[], by simp [Assembler.bind, Assembler.withBody], by simp⟩,
    ⟨#[], by simp [Assembler.bind, Assembler.withBody], by simp⟩, fun l o hl => ?_⟩, rfl⟩,
    LabelTable.offset?_insert_self _ _ _, rfl, rfl⟩
  have hne : l ≠ label := by
    rintro rfl
    rw [hfree] at hl
    cases hl
  exact (LabelTable.offset?_insert_of_ne _ _ hne).trans hl

theorem not_yields_refuse {refusal : Refusal} {location : Location} {a : α} :
    ¬ Yields (refuse refusal location : Emit α) s a t := not_throw

theorem not_yields_badOperands {fault : OperandFault} {location : Location} {a : α} :
    ¬ Yields (badOperands fault location : Emit α) s a t := not_throw

theorem not_yields_missing {feature : MissingFeature} {location : Location} {a : α} :
    ¬ Yields (missing feature location : Emit α) s a t := by
  intro h
  unfold missing functionName at h
  simp only [bind_iff] at h
  obtain ⟨_, _, _, h⟩ := h
  exact not_throw h

theorem yields_ofExcept {r : Except CompileError α} {a : α} :
    Yields (ofExcept r) s a t ↔ r = .ok a ∧ t = s := by
  constructor
  · intro h
    cases h
    exact ⟨rfl, rfl⟩
  · rintro ⟨rfl, rfl⟩
    rfl

theorem yields_represent {type : CType} {location : Location} {target : TargetType}
    (h : Yields (represent type location) s target t) : type.target = .ok target ∧ t = s := by
  unfold represent functionName at h
  simp only [bind_iff, get_iff, pure_iff, yields_ofExcept] at h
  obtain ⟨_, _, ⟨_, _, ⟨rfl, rfl⟩, rfl, rfl⟩, h, rfl⟩ := h
  unfold CType.represent at h
  cases ht : type.target with
  | error part =>
    rw [ht] at h
    cases h
  | ok target' =>
    rw [ht] at h
    cases h
    exact ⟨rfl, rfl⟩

theorem yields_lookupVariable {name : String} {location : Location} {v : Variable}
    (h : Yields (lookupVariable name location) s v t) : s.findVariable? name = some v ∧ t = s := by
  unfold lookupVariable at h
  simp only [bind_iff, get_iff] at h
  obtain ⟨_, _, ⟨rfl, rfl⟩, h⟩ := h
  split at h
  · rename_i w hw
    obtain ⟨rfl, rfl⟩ := pure_iff.1 h
    exact ⟨hw, rfl⟩
  · exact absurd h not_yields_refuse

end Emit

end ManagedC
