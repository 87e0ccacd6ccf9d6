import ManagedC.Proofs.Run.Instruction

/-!
# Faults that no instruction raises

A program that exits with something else than an integer fails, and so does a call whose control has
come to the end of its method; but neither is the fault of an instruction. Main statement: what an
instruction inside a call faults with is another fault (`Activation.inner_execute`), and so is what
a call faults with that cannot begin (`Activation.inner_enter`).
-/

namespace ManagedC

namespace Fault

/-- Whether the fault says that an exit code is not an integer. -/
def isExitCode : Fault → Bool
  | .typeMismatch (.exitCode _) => true
  | _ => false

/-- Whether the fault says that there is no instruction. -/
def isFellOff : Fault → Bool
  | .invalidProgram (.fellOff _) => true
  | _ => false

/-- Whether the fault is one that no instruction raises. -/
def isOuter (f : Fault) : Bool := f.isExitCode || f.isFellOff

theorem isExitCode_of_not_isOuter {f : Fault} (h : f.isOuter = false) : f.isExitCode = false :=
  (Bool.or_eq_false_iff.1 h).1

theorem isFellOff_of_not_isOuter {f : Fault} (h : f.isOuter = false) : f.isFellOff = false :=
  (Bool.or_eq_false_iff.1 h).2

end Fault

variable {α β : Type}

/-- If the result is a fault, instructions may raise it. -/
def Inner (x : Except Fault α) : Prop := ∀ f, x = .error f → f.isOuter = false

/-- If the computation ends in a fault, instructions may raise it. -/
def Access.Inner (x : Access α) : Prop := ∀ s f t, Fails x s f t → f.isOuter = false

namespace Inner

theorem pure (a : α) : Inner (Pure.pure a) := fun _ h => by cases h

theorem throw {f : Fault} (h : f.isOuter = false) :
    Inner (MonadExcept.throw f : Except Fault α) := fun _ h' => by cases h'; exact h

theorem bind {x : Except Fault α} {g : α → Except Fault β} (hx : Inner x)
    (hg : ∀ a, Inner (g a)) : Inner (x >>= g) := by
  intro f h
  rcases Except.bind_eq_error.1 h with h | ⟨a, -, h⟩
  · exact hx f h
  · exact hg a f h

theorem throw_bind {f : Fault} {g : α → Except Fault β} (h : f.isOuter = false) :
    Inner (MonadExcept.throw f >>= g) := fun _ h' => by cases h'; exact h

theorem map {x : Except Fault α} (g : α → β) (hx : Inner x) : Inner (g <$> x) := by
  intro f h
  cases x with
  | ok a => cases h
  | error e =>
    cases h
    exact hx _ rfl

end Inner

/-! ## Values, numbers and memory -/

namespace Value

theorem inner_asInt (v : Value) : Inner v.asInt := by
  cases v <;> first | exact Inner.pure _ | exact Inner.throw rfl

theorem inner_asObject (v : Value) : Inner v.asObject := by
  cases v <;> first | exact Inner.pure _ | exact Inner.throw rfl

theorem inner_asPointer (v : Value) : Inner v.asPointer := by
  unfold asPointer
  split
  · exact .pure _
  · split <;> exact .throw rfl

end Value

theorem BinaryInstr.inner_apply (op : BinaryInstr) (u v : Value) : Inner (op.apply u v) := by
  unfold apply
  split
  · refine .map _ ?_
    cases op with
    | div | rem =>
      unfold onInts
      dsimp only
      split
      · exact .throw rfl
      · exact .pure _
    | _ => exact .pure _
  · exact .pure _
  · exact .pure _
  · exact .pure _
  · split
    · exact .pure _
    · exact .throw rfl
  · exact .throw rfl

theorem CompareInstr.inner_apply (op : CompareInstr) (u v : Value) : Inner (op.apply u v) := by
  have hunordered : Inner (op.unordered u v) := by
    unfold unordered
    split
    · exact .pure _
    · exact .throw rfl
  unfold apply
  split
  · exact .pure _
  · split
    · exact .pure _
    · exact hunordered
  · exact hunordered

theorem TargetType.inner_elementSize (type : TargetType) : Inner type.elementSize := by
  unfold elementSize
  split
  · exact .pure _
  · exact .throw rfl

namespace Heap

variable (h : Heap)

theorem inner_object (id : Nat) : Inner (h.object id) := by
  unfold object
  split
  · exact .pure _
  · exact .throw rfl

theorem inner_string (id : Nat) : Inner (h.string id) := by
  refine (h.inner_object id).bind fun o => ?_
  cases o with
  | string => exact .pure _
  | array => exact .throw rfl

theorem inner_array (id : Nat) : Inner (h.array id) := by
  refine (h.inner_object id).bind fun o => ?_
  cases o with
  | string => exact .throw rfl
  | array => exact .pure _

theorem inner_setElements (id : Nat) (elements : Array Value) : Inner (h.setElements id elements) := by
  refine (h.inner_object id).bind fun o => ?_
  cases o with
  | string => exact .throw rfl
  | array => exact .pure _

theorem inner_changePins (id : Nat) (change : Nat → Nat) : Inner (h.changePins id change) := by
  unfold changePins
  split
  · exact .pure _
  · exact .throw rfl

theorem inner_block (id : Nat) : Inner (h.block id) := by
  unfold block
  split
  · exact .pure _
  · exact .throw rfl
  · exact .throw rfl

theorem inner_free (id : Nat) : Inner (h.free id) := by
  unfold free
  split
  · exact .pure _
  · exact .throw rfl
  · exact .throw rfl

theorem inner_checkAccess (p : Pointer) : Inner (h.checkAccess p) := by
  unfold checkAccess
  split
  · split
    · exact .pure _
    · exact .throw rfl
  · exact .pure _

theorem inner_elementIndex (id : Nat) (offset : Int64) : Inner (h.elementIndex id offset) := by
  unfold elementIndex
  refine (h.inner_array id).bind fun a => a.1.inner_elementSize.bind fun size => ?_
  dsimp only
  split
  · exact .throw_bind rfl
  · split
    · exact .throw_bind rfl
    · exact .pure _

theorem inner_nativeStart (size : Nat) (offset : Int64) (width : Nat) :
    Inner (nativeStart size offset width) := by
  unfold nativeStart
  split
  · exact .throw rfl
  · exact .pure _

theorem inner_load (p : Pointer) (type : TargetType) : Inner (h.load p type) := by
  unfold load
  refine (h.inner_checkAccess p).bind fun _ => ?_
  split
  · exact (h.inner_elementIndex _ _).bind fun _ => (h.inner_array _).bind fun _ => .pure _
  · dsimp only
    split
    · exact .throw_bind rfl
    · exact (h.inner_block _).bind fun _ => type.inner_elementSize.bind fun _ =>
        (inner_nativeStart _ _ _).bind fun _ => .pure _

theorem inner_store (p : Pointer) (type : TargetType) (v : Value) : Inner (h.store p type v) := by
  unfold store
  refine (h.inner_checkAccess p).bind fun _ => ?_
  split
  · exact (h.inner_elementIndex _ _).bind fun _ => (h.inner_array _).bind fun _ =>
      h.inner_setElements _ _
  · dsimp only
    split
    · exact .throw_bind rfl
    · exact type.inner_elementSize.bind fun _ => v.inner_asInt.bind fun _ =>
        (h.inner_block _).bind fun _ => (inner_nativeStart _ _ _).bind fun _ => .pure _

end Heap

/-! ## Computations on the store -/

namespace Access

namespace Inner

theorem pure (a : α) : Access.Inner (Pure.pure a) := fun _ _ _ h => absurd h Fails.not_pure

theorem throw {f : Fault} (h : f.isOuter = false) :
    Access.Inner (MonadExcept.throw f : Access α) := fun _ _ _ h' => by
  obtain ⟨rfl, -⟩ := Fails.throw_iff.1 h'
  exact h

theorem bind {x : Access α} {g : α → Access β} (hx : x.Inner) (hg : ∀ a, (g a).Inner) :
    Access.Inner (x >>= g) := by
  intro s f t h
  rcases Fails.bind_iff.1 h with h | ⟨a, u, -, h⟩
  · exact hx s f t h
  · exact hg a u f t h

theorem throw_bind {f : Fault} {g : α → Access β} (h : f.isOuter = false) :
    Access.Inner (MonadExcept.throw f >>= g) := fun _ _ _ h' => by cases h'; exact h

theorem map {x : Access α} (g : α → β) (hx : x.Inner) : Access.Inner (g <$> x) :=
  fun s f t h => hx s f t (Fails.map_iff.1 h)

theorem ofExcept {x : Except Fault α} (hx : ManagedC.Inner x) : (Access.ofExcept x).Inner := by
  intro s f t h
  cases h
  exact hx f rfl

theorem get : Access.Inner (MonadState.get : Access Store) := fun _ _ _ h => absurd h Fails.not_get

theorem modify (g : Store → Store) : Access.Inner (modify g : Access Unit) :=
  fun _ _ _ h => absurd h Fails.not_modify

theorem read {g : Heap → Except Fault α} (hg : ∀ h, ManagedC.Inner (g h)) :
    (Access.read g).Inner :=
  get.bind fun s => .ofExcept (hg s.heap)

theorem update {g : Heap → Except Fault Heap} (hg : ∀ h, ManagedC.Inner (g h)) :
    (Access.update g).Inner :=
  (read hg).bind fun _ => .modify _

theorem newArray (element : TargetType) (elements : Array Value) :
    (Access.newArray element elements).Inner :=
  get.bind fun _ => (modify _).bind fun _ => .pure _

theorem mapM {f : α → Access β} (hf : ∀ a, (f a).Inner) : ∀ xs : List α, Access.Inner (xs.mapM f)
  | [] => .pure _
  | x :: xs => by
    rw [List.mapM_cons]
    exact (hf x).bind fun _ => (mapM hf xs).bind fun _ => .pure _

theorem forM {f : α → Access Unit} (hf : ∀ a, (f a).Inner) : ∀ xs : List α, Access.Inner (xs.forM f)
  | [] => .pure _
  | x :: xs => (hf x).bind fun _ => forM hf xs

end Inner

theorem inner_argsToArgv (v : Value) : (argsToArgv v).Inner := by
  have htexts : ∀ values, (texts values).Inner := Inner.mapM fun v =>
    (Inner.ofExcept v.inner_asObject).bind fun _ => .read fun h => h.inner_string _
  have hcopy : ∀ text, (nativeCopy text).Inner := fun text =>
    (Inner.get.bind fun _ => (Inner.modify _).bind fun _ => .pure _ : (newBlock _).Inner).bind
      fun _ => (Inner.modify _).bind fun _ => .pure _
  unfold argsToArgv
  refine (Inner.ofExcept v.inner_asObject).bind fun _ => ?_
  refine (Inner.read fun h => h.inner_array _).bind fun a => ?_
  dsimp only
  split
  · exact .throw_bind rfl
  · exact (htexts _).bind fun _ => (Inner.mapM hcopy _).bind fun _ => (Inner.modify _).bind fun _ =>
      (Inner.newArray _ _).bind fun _ => .pure _

theorem inner_freeArgv (v : Value) : (freeArgv v).Inner := by
  have hfree : ∀ v, (freeTarget v).Inner := by
    intro v
    unfold freeTarget
    split
    · exact (Inner.update fun h => h.inner_free _).bind fun _ => .modify _
    · exact .pure _
  unfold freeArgv
  exact (Inner.ofExcept v.inner_asObject).bind fun _ => (Inner.read fun h => h.inner_array _).bind
    fun _ => (Inner.modify _).bind fun _ => .forM hfree _

theorem inner_arrayCopy (v w : Value) (length : Int64) : (arrayCopy v w length).Inner := by
  unfold arrayCopy
  refine (Inner.ofExcept v.inner_asObject).bind fun _ => ?_
  refine (Inner.ofExcept w.inner_asObject).bind fun _ => ?_
  split
  · exact .throw_bind rfl
  refine (Inner.read fun h => h.inner_array _).bind fun _ => ?_
  dsimp only
  split
  · exact .throw_bind rfl
  refine (Inner.read fun h => h.inner_array _).bind fun _ => ?_
  split
  · exact .throw_bind rfl
  split
  · exact .throw_bind rfl
  · exact .update fun h => h.inner_setElements _ _

theorem inner_callHelper (helper : Helper) (arguments : List Value) :
    (callHelper helper arguments).Inner := by
  unfold callHelper
  split
  · exact .map _ (inner_argsToArgv _)
  · exact (inner_freeArgv _).bind fun _ => .pure _
  · exact (Inner.ofExcept (Value.inner_asInt _)).bind fun _ => (inner_arrayCopy _ _ _).bind
      fun _ => .pure _
  · exact .throw rfl

end Access

/-! ## Instructions -/

namespace Activation

variable (a : Activation)

theorem inner_pop : Inner a.pop := by
  unfold pop
  split
  · exact .pure _
  · exact .throw rfl

theorem inner_mapTop {f : Value → Except Fault Value} (hf : ∀ v, Inner (f v)) :
    Inner (a.mapTop f) :=
  a.inner_pop.bind fun p => (hf p.1).bind fun _ => .pure _

theorem inner_mapTop2 {f : Value → Value → Except Fault Value} (hf : ∀ u v, Inner (f u v)) :
    Inner (a.mapTop2 f) :=
  a.inner_pop.bind fun p => p.2.inner_pop.bind fun q => (hf q.1 p.1).bind fun _ => .pure _

theorem inner_target (label : Label) : Inner (a.target label) := by
  unfold target
  split
  · exact .pure _
  · exact .throw rfl

theorem inner_storeLocal (slot : UInt16) (v : Value) : (a.storeLocal slot v).Inner := by
  cases hdeclared : a.method.locals[slot.toNat]? with
  | none =>
    unfold storeLocal
    rw [hdeclared]
    exact .throw rfl
  | some declared =>
    rw [storeLocal_eq hdeclared]
    refine Access.Inner.bind ?_ fun _ => .pure _
    unfold repin unpinOld pinNew
    split
    · refine Access.Inner.bind ?_ fun _ => ?_
      all_goals
        split
        · exact (Access.Inner.update fun h => h.inner_changePins _ _).bind fun _ =>
            (Access.Inner.modify _).bind fun _ => .modify _
        · exact .pure _
    · exact .pure _

theorem inner_elementReference (h : Heap) (element : TargetType) (object : Nat) (index : Int64) :
    Inner (elementReference h element object index) := by
  unfold elementReference
  refine (h.inner_array _).bind fun _ => ?_
  dsimp only
  split
  · exact .throw_bind rfl
  · exact element.inner_elementSize.bind fun _ => .pure _

theorem inner_makeArray (element : TargetType) (v : Value) : (makeArray element v).Inner := by
  unfold makeArray
  refine (Access.Inner.ofExcept v.inner_asInt).bind fun _ => ?_
  split
  · exact .throw_bind rfl
  · exact (Access.Inner.newArray _ _).bind fun _ => .pure _

theorem inner_toNative (v : Value) : Inner (toNative v) := by
  cases v with
  | int | pointer | null => exact .pure _
  | float | object => exact .throw rfl

theorem inner_toAddress (v : Value) : Inner (toAddress v) := by
  cases v with
  | int | pointer | null => exact .pure _
  | float | object => exact .throw rfl

/-- What an instruction inside a call faults with is neither about an exit code nor about control that
has come to the end. -/
theorem inner_execute (i : Instruction) : (a.execute i).Inner := by
  have hpop : (Access.ofExcept a.pop).Inner := .ofExcept a.inner_pop
  have hadvance : ∀ {x : Except Fault Activation}, Inner x →
      Access.Inner (Access.ofExcept x >>= fun b => pure b.advance) :=
    fun hx => (Access.Inner.ofExcept hx).bind fun _ => .pure _
  cases i with
  | nop | constInt32 | constInt64 | loadNull | call | ret | leave | endFinally => exact .pure _
  | neg | not | convInt32 => exact hadvance (a.inner_mapTop fun v => v.inner_asInt.map _)
  | convInt64 | convNative => exact hadvance (a.inner_mapTop inner_toNative)
  | convAddress => exact hadvance (a.inner_mapTop inner_toAddress)
  | binary op => exact hadvance (a.inner_mapTop2 fun u v => op.inner_apply u v)
  | compare op => exact hadvance (a.inner_mapTop2 fun u v => (op.inner_apply u v).map _)
  | loadArgument | loadLocal =>
    simp only [execute]
    split
    · exact .pure _
    · exact .throw rfl
  | storeArgument =>
    refine hpop.bind fun _ => ?_
    dsimp only
    split
    · exact .pure _
    · exact .throw rfl
  | storeLocal => exact hpop.bind fun _ => (inner_storeLocal _ _ _).bind fun _ => .pure _
  | dup | pop => exact hpop.bind fun _ => .pure _
  | branch target => exact (Access.Inner.ofExcept (a.inner_target target)).bind fun _ => .pure _
  | branchIf condition target =>
    refine hpop.bind fun p => ?_
    dsimp only
    split
    · exact (Access.Inner.ofExcept (p.2.inner_target target)).bind fun _ => .pure _
    · exact .pure _
  | callHelper helper =>
    simp only [execute]
    split
    · exact .throw rfl
    · refine (Access.inner_callHelper _ _).bind fun _ => ?_
      split
      · exact (Access.Inner.modify _).bind fun _ => .pure _
      · exact .pure _
  | newArray => exact hpop.bind fun _ => (inner_makeArray _ _).bind fun _ => .pure _
  | arrayLength =>
    exact hpop.bind fun p => (Access.Inner.ofExcept p.1.inner_asObject).bind fun _ =>
      (Access.Inner.read fun h => h.inner_array _).bind fun _ => .pure _
  | elementAddress =>
    exact hpop.bind fun p => (Access.Inner.ofExcept p.1.inner_asInt).bind fun _ =>
      (Access.Inner.ofExcept p.2.inner_pop).bind fun q =>
        (Access.Inner.ofExcept q.1.inner_asObject).bind fun _ =>
          (Access.Inner.read fun h => inner_elementReference h _ _ _).bind fun _ => .pure _
  | load =>
    exact Access.Inner.get.bind fun s => hadvance (a.inner_mapTop fun v =>
      v.inner_asPointer.bind fun p => s.heap.inner_load p _)
  | store =>
    exact hpop.bind fun p => (Access.Inner.ofExcept p.2.inner_pop).bind fun q =>
      (Access.Inner.ofExcept q.1.inner_asPointer).bind fun _ =>
        (Access.Inner.update fun h => h.inner_store _ _ _).bind fun _ => .pure _

/-- A call that cannot begin does not fault in these ways either. -/
theorem inner_enter (m : Method) (arguments : List Value) (depth maxDepth : Nat) :
    Inner (enter m arguments depth maxDepth) := by
  unfold enter
  split
  all_goals
    dsimp only
    split
    · exact .throw_bind rfl
    split
    · exact .throw_bind rfl
  · exact .throw rfl
  · exact .pure _

end Activation

end ManagedC
