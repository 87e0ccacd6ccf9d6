import ManagedC.Compile.EntryPoint
import ManagedC.Proofs.Run.Operands

/-!
# Places where control may be

`Method.Safe` says that control may be at an instruction of a method with a stack of some height: the
next so many instructions of the call find what they take off the stack, the slots and labels that
they name, and the methods that they call. The number of instructions is bounded so that a loop can
be shown safe by induction on it. Main statements: what is safe for longer is safe for a shorter time
(`Method.Safe.mono`), and what holds behind straight-line code whose heights fit holds before it, if
instructions carry it back like safety (`Method.Runs.carry`).
-/

namespace ManagedC

/-- Whether control goes on to the next instruction of the same call. -/
def Instruction.isStraight : Instruction → Bool
  | .call _ | .ret | .leave _ | .endFinally | .branch _ | .branchIf _ _ => false
  | _ => true

/-- Behind an instruction that is no jump control is at the next one. -/
theorem Activation.Executes.pc_of_isStraight {a b : Activation} {s t : Store} {i : Instruction}
    (h : a.Executes s i b t) (hi : i.isStraight = true) : b.pc = a.pc + 1 := by
  rcases h.pc with ⟨hpc, -⟩ | ⟨target, htarget, -⟩
  · exact hpc
  · cases i <;> cases htarget <;> cases hi

namespace Method

/-- How many values a call leaves on the stack of its caller. -/
def results (m : Method) : Nat := if m.returnType = .void then 0 else 1

/-- The method owes a value: it has a result, and it belongs neither to an entry function nor to a
starter. -/
structure Owes (m : Method) : Prop where
  returnType : m.returnType ≠ .void
  /-- It is not the method of an entry function. -/
  notEntry : m.name ≠ EntryPoint.functionName
  notStarter : m.name ≠ EntryPoint.starterName

/-- Control may be at an instruction with a stack of a height, inside a handler or outside of all, and
so many instructions can be executed. -/
inductive Safe (program : Module) (m : Method) : Nat → Bool → Nat → Nat → Prop where
  /-- No instruction is to be executed. -/
  | zero {inHandler : Bool} {pc height : Nat} : Safe program m 0 inHandler pc height
  /-- The method may end without a return, which is a fault of the source. -/
  | fellOff {n : Nat} {inHandler : Bool} {pc height : Nat} :
    m.body.instructions[pc]? = none → m.Owes → Safe program m (n + 1) inHandler pc height
  /-- Control goes on to the next instruction. -/
  | straight {n : Nat} {inHandler : Bool} {pc height : Nat} {i : Instruction} :
    m.body.instructions[pc]? = some i → i.isStraight = true → m.Provides i → i.takes ≤ height →
    Safe program m n inHandler (pc + 1) (height - i.takes + i.gives) →
    Safe program m (n + 1) inHandler pc height
  | branch {n : Nat} {inHandler : Bool} {pc height : Nat} {target : Label} {offset : Nat} :
    m.body.instructions[pc]? = some (.branch target) →
    m.body.labels.offset? target = some offset → Safe program m n inHandler offset height →
    Safe program m (n + 1) inHandler pc height
  | branchIf {n : Nat} {inHandler : Bool} {pc height : Nat} {condition : Bool} {target : Label}
      {offset : Nat} :
    m.body.instructions[pc]? = some (.branchIf condition target) →
    m.body.labels.offset? target = some offset → Safe program m n inHandler offset height →
    Safe program m n inHandler (pc + 1) height →
    Safe program m (n + 1) inHandler pc (height + 1)
  | call {n : Nat} {inHandler : Bool} {pc height : Nat} {ref : MethodRef} {callee : Method} :
    m.body.instructions[pc]? = some (.call ref) →
    program.findMethod? ref.name = some callee →
    Safe program m n inHandler (pc + 1) (height + callee.results) →
    Safe program m (n + 1) inHandler pc (height + callee.parameters.length)
  | ret {n : Nat} {pc height : Nat} :
    m.body.instructions[pc]? = some .ret → m.results ≤ height →
    Safe program m (n + 1) false pc height
  | leave {n : Nat} {pc height : Nat} {target : Label} {offset : Nat} :
    m.body.instructions[pc]? = some (.leave target) →
    m.body.labels.offset? target = some offset → Safe program m n false offset 0 →
    Safe program m (n + 1) false pc height
  | endFinally {n : Nat} {pc height : Nat} :
    m.body.instructions[pc]? = some .endFinally → Safe program m (n + 1) true pc height

variable {program : Module} {m : Method} {inHandler : Bool} {n pc height height' : Nat}
  {code code' : List Instruction}

/-- What is safe for longer is safe for a shorter time. -/
theorem Safe.mono (h : Safe program m n inHandler pc height) {k : Nat} (hk : k ≤ n) :
    Safe program m k inHandler pc height := by
  induction h generalizing k with
  | zero =>
    obtain rfl : k = 0 := Nat.le_zero.1 hk
    exact .zero
  | fellOff hi howes =>
    cases k with
    | zero => exact .zero
    | succ k => exact .fellOff hi howes
  | straight hi hs hm ht _ ih =>
    cases k with
    | zero => exact .zero
    | succ k => exact .straight hi hs hm ht (ih (by omega))
  | branch hi hl _ ih =>
    cases k with
    | zero => exact .zero
    | succ k => exact .branch hi hl (ih (by omega))
  | branchIf hi hl _ _ ih ih' =>
    cases k with
    | zero => exact .zero
    | succ k => exact .branchIf hi hl (ih (by omega)) (ih' (by omega))
  | call hi hm _ ih =>
    cases k with
    | zero => exact .zero
    | succ k => exact .call hi hm (ih (by omega))
  | ret hi hh =>
    cases k with
    | zero => exact .zero
    | succ k => exact .ret hi hh
  | leave hi hl _ ih =>
    cases k with
    | zero => exact .zero
    | succ k => exact .leave hi hl (ih (by omega))
  | endFinally hi =>
    cases k with
    | zero => exact .zero
    | succ k => exact .endFinally hi

/-- One instruction of less is enough. -/
theorem Safe.pred (h : Safe program m (n + 1) inHandler pc height) :
    Safe program m n inHandler pc height := h.mono (Nat.le_succ n)

/-! ## What is at a safe place -/

/-- Only a method that owes a value may run into its end. -/
theorem Safe.at_none (h : Safe program m (n + 1) inHandler pc height)
    (hi : m.body.instructions[pc]? = none) : m.Owes := by
  cases h with
  | fellOff _ howes => exact howes
  | straight hj | branch hj | branchIf hj | call hj | ret hj | leave hj | endFinally hj =>
    rw [hj] at hi
    cases hi

/-- A method that is called exists, and its arguments are there. -/
theorem Safe.at_call {ref : MethodRef} (h : Safe program m (n + 1) inHandler pc height)
    (hi : m.body.instructions[pc]? = some (.call ref)) :
    ∃ callee, program.findMethod? ref.name = some callee ∧ callee.parameters.length ≤ height ∧
      Safe program m n inHandler (pc + 1) (height - callee.parameters.length + callee.results) := by
  cases h with
  | call hj hfind hnext =>
    rw [hj] at hi
    cases hi
    exact ⟨_, hfind, Nat.le_add_left _ _, by rwa [Nat.add_sub_cancel]⟩
  | straight hj hs =>
    rw [hj] at hi
    cases hi
    cases hs
  | fellOff hj | branch hj | branchIf hj | ret hj | leave hj | endFinally hj =>
    rw [hj] at hi
    cases hi

/-- A return is outside of all handlers, and the result is there. -/
theorem Safe.at_ret (h : Safe program m (n + 1) inHandler pc height)
    (hi : m.body.instructions[pc]? = some .ret) : inHandler = false ∧ m.results ≤ height := by
  cases h with
  | ret _ hresults => exact ⟨rfl, hresults⟩
  | straight hj hs =>
    rw [hj] at hi
    cases hi
    cases hs
  | fellOff hj | branch hj | branchIf hj | call hj | leave hj | endFinally hj =>
    rw [hj] at hi
    cases hi

/-- A jump out of regions is outside of all handlers, and its target is safe. -/
theorem Safe.at_leave {target : Label} (h : Safe program m (n + 1) inHandler pc height)
    (hi : m.body.instructions[pc]? = some (.leave target)) : inHandler = false ∧
      ∃ offset, m.body.labels.offset? target = some offset ∧ Safe program m n false offset 0 := by
  cases h with
  | leave hj hl hnext =>
    rw [hj] at hi
    cases hi
    exact ⟨rfl, _, hl, hnext⟩
  | straight hj hs =>
    rw [hj] at hi
    cases hi
    cases hs
  | fellOff hj | branch hj | branchIf hj | call hj | ret hj | endFinally hj =>
    rw [hj] at hi
    cases hi

/-- The end of a handler is inside one. -/
theorem Safe.at_endFinally (h : Safe program m (n + 1) inHandler pc height)
    (hi : m.body.instructions[pc]? = some .endFinally) : inHandler = true := by
  cases h with
  | endFinally => rfl
  | straight hj hs =>
    rw [hj] at hi
    cases hi
    cases hs
  | fellOff hj | branch hj | branchIf hj | call hj | ret hj | leave hj =>
    rw [hj] at hi
    cases hi

/-! ## Straight-line code -/

/-- The code stands in the method from an instruction on. -/
def HasCode (m : Method) (pc : Nat) (code : List Instruction) : Prop :=
  ∀ (k : Nat) (i : Instruction), code[k]? = some i → m.body.instructions[pc + k]? = some i

theorem HasCode.head {i : Instruction} (h : m.HasCode pc (i :: code)) :
    m.body.instructions[pc]? = some i := h 0 i rfl

theorem HasCode.tail {i : Instruction} (h : m.HasCode pc (i :: code)) :
    m.HasCode (pc + 1) code := by
  intro k j hj
  have := h (k + 1) j hj
  rwa [Nat.add_comm k 1, ← Nat.add_assoc] at this

theorem HasCode.left (h : m.HasCode pc (code ++ code')) : m.HasCode pc code := by
  intro k i hi
  have hk := (List.getElem?_eq_some_iff.1 hi).1
  exact h k i (by rw [List.getElem?_append_left hk, hi])

theorem HasCode.right (h : m.HasCode pc (code ++ code')) :
    m.HasCode (pc + code.length) code' := by
  intro k i hi
  rw [Nat.add_assoc]
  exact h (code.length + k) i (by rw [List.getElem?_append_right (by omega)]; simpa using hi)

/-- The instructions from some number on begin with the code. -/
theorem HasCode.of_drop {rest : List Instruction}
    (h : m.body.instructions.toList.drop pc = code ++ rest) : m.HasCode pc code := by
  intro k i hi
  have hk := (List.getElem?_eq_some_iff.1 hi).1
  have hget : (m.body.instructions.toList.drop pc)[k]? = some i := by
    rw [h, List.getElem?_append_left hk, hi]
  rwa [List.getElem?_drop, Array.getElem?_toList] at hget

/-- Straight-line code takes a stack from one height to another and finds what it needs. -/
def Runs (m : Method) : List Instruction → Nat → Nat → Prop
  | [], height, height' => height = height'
  | i :: code, height, height' =>
    i.isStraight = true ∧ m.Provides i ∧ i.takes ≤ height ∧
      Runs m code (height - i.takes + i.gives) height'

theorem Runs.append {middle : Nat} (h : m.Runs code height middle)
    (h' : m.Runs code' middle height') : m.Runs (code ++ code') height height' := by
  induction code generalizing height with
  | nil =>
    obtain rfl : height = middle := h
    exact h'
  | cons i code ih =>
    obtain ⟨hs, hm, ht, h⟩ := h
    exact ⟨hs, hm, ht, ih h⟩

theorem Runs.isStraight (h : m.Runs code height height') : ∀ i ∈ code, i.isStraight = true := by
  induction code generalizing height with
  | nil => simp
  | cons i code ih =>
    obtain ⟨hs, -, -, h⟩ := h
    exact List.forall_mem_cons.2 ⟨hs, ih h⟩

/-! ## What holds before and behind an instruction -/

/-- A property of places and heights holds before an instruction if it holds where control goes from
there, with the height that the stack has then. -/
structure Carries (program : Module) (m : Method) (P : Nat → Nat → Prop) : Prop where
  /-- Control goes on to the next instruction. -/
  straight : ∀ {pc height : Nat} {i : Instruction}, m.body.instructions[pc]? = some i →
    i.isStraight = true → m.Provides i → i.takes ≤ height →
    P (pc + 1) (height - i.takes + i.gives) → P pc height
  branch : ∀ {pc height : Nat} {target : Label} {offset : Nat},
    m.body.instructions[pc]? = some (.branch target) →
    m.body.labels.offset? target = some offset → P offset height → P pc height
  branchIf : ∀ {pc height : Nat} {condition : Bool} {target : Label} {offset : Nat},
    m.body.instructions[pc]? = some (.branchIf condition target) →
    m.body.labels.offset? target = some offset → P offset height → P (pc + 1) height →
    P pc (height + 1)
  call : ∀ {pc height : Nat} {ref : MethodRef} {callee : Method},
    m.body.instructions[pc]? = some (.call ref) → program.findMethod? ref.name = some callee →
    P (pc + 1) (height + callee.results) → P pc (height + callee.parameters.length)

/-- What is safe behind an instruction is safe before it. -/
theorem Safe.carries : m.Carries program (Safe program m n inHandler) :=
  ⟨fun hi hs hm ht h => (straight hi hs hm ht h).pred, fun hi hl h => (branch hi hl h).pred,
    fun hi hl h h' => (branchIf hi hl h h').pred, fun hi hm h => (call hi hm h).pred⟩

/-- What holds behind straight-line code holds before it. -/
theorem Runs.carry {P : Nat → Nat → Prop} (hP : m.Carries program P) (h : m.Runs code height height')
    (hcode : m.HasCode pc code) (hafter : P (pc + code.length) height') : P pc height := by
  induction code generalizing pc height with
  | nil =>
    obtain rfl : height = height' := h
    exact hafter
  | cons i code ih =>
    obtain ⟨hs, hm, ht, h⟩ := h
    rw [List.length_cons, ← Nat.add_assoc, Nat.add_right_comm] at hafter
    exact hP.straight hcode.head hs hm ht (ih h hcode.tail hafter)

/-- Straight-line code leads from one safe place to another. -/
theorem Runs.safe (h : m.Runs code height height') (hcode : m.HasCode pc code)
    (hafter : Safe program m n inHandler (pc + code.length) height') :
    Safe program m n inHandler pc height := h.carry Safe.carries hcode hafter

end Method

end ManagedC
