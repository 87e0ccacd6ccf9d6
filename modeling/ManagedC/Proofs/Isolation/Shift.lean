import Mathlib.Tactic.Common
import ManagedC.Proofs.Computation
import ManagedC.Machine.Session

/-!
# Other numbers for objects and blocks

Objects and blocks are numbered in the order they were made. In a store that is in use already the
same program gets other numbers for them than in a new store: all of them are larger by the number of
objects and of blocks that are there. `Shift` is this difference, `Heap.after` the heap with its
contents behind another one. What is computed on values and heaps is computed on the shifted ones in
the same way, faults included (`Shifts`).
-/

namespace ManagedC

/-- How far the numbers of objects and of blocks are moved. -/
structure Shift where
  /-- How far the numbers of objects are moved. -/
  objects : Nat
  /-- How far the numbers of blocks are moved. -/
  blocks : Nat

/-! ## Values and faults -/

/-- The place under its new number. -/
def Place.shift (d : Shift) : Place → Place
  | .native block => .native (d.blocks + block)
  | .array object => .array (d.objects + object)

/-- The pointer to the place under its new number. -/
def Pointer.shift (d : Shift) (p : Pointer) : Pointer := { p with place := p.place.shift d }

/-- The value with new numbers. -/
def Value.shift (d : Shift) : Value → Value
  | .object id => .object (d.objects + id)
  | .pointer p => .pointer (p.shift d)
  | v => v

/-- The mismatch with new numbers. -/
def Mismatch.shift (d : Shift) : Mismatch → Mismatch
  | .notInteger found => .notInteger (found.shift d)
  | .notObject found => .notObject (found.shift d)
  | .notPointer found => .notPointer (found.shift d)
  | .notString id => .notString (d.objects + id)
  | .notArray id => .notArray (d.objects + id)
  | .notPinnable id => .notPinnable (d.objects + id)
  | .noInteger found => .noInteger (found.shift d)
  | .noAddress found => .noAddress (found.shift d)
  | .operands op left right => .operands op (left.shift d) (right.shift d)
  | .unordered left right => .unordered (left.shift d) (right.shift d)
  | .exitCode found => .exitCode (found.shift d)
  | cause => cause

/-- The malformation with new numbers. -/
def Malformation.shift (d : Shift) : Malformation → Malformation
  | .danglingObject id => .danglingObject (d.objects + id)
  | .unknownBlock id => .unknownBlock (d.blocks + id)
  | cause => cause

/-- The fault with new numbers. -/
def Fault.shift (d : Shift) : Fault → Fault
  | .accessViolation object => .accessViolation (d.objects + object)
  | .doubleFree block => .doubleFree (d.blocks + block)
  | .useAfterFree block => .useAfterFree (d.blocks + block)
  | .typeMismatch cause => .typeMismatch (cause.shift d)
  | .invalidProgram cause => .invalidProgram (cause.shift d)
  | fault => fault

/-- The crash with new numbers. -/
def Crash.shift (d : Shift) (c : Crash) : Crash := { c with fault := c.fault.shift d }

/-- The failure with new numbers. -/
def Failure.shift (d : Shift) : Failure → Failure
  | .crash c => .crash (c.shift d)
  | failure => failure

/-- The object with new numbers in it. -/
def HeapObject.shift (d : Shift) : HeapObject → HeapObject
  | .string text => .string text
  | .array element elements pins => .array element (elements.map (·.shift d)) pins

namespace Heap

/-- The shift that makes room for the objects and blocks of a heap. -/
def room (h : Heap) : Shift := ⟨h.objects.size, h.blocks.size⟩

/-- The objects and blocks of `h`, after those of `base`. -/
def after (base h : Heap) : Heap :=
  ⟨base.objects ++ h.objects.map (·.shift base.room), base.blocks ++ h.blocks⟩

end Heap

/-- The second result is the first one with new numbers: a value is taken by a function. -/
def Shifts {α β : Type} (d : Shift) (f : α → β) (x : Except Fault α) (y : Except Fault β) : Prop :=
  match x with
  | .ok a => y = .ok (f a)
  | .error fault => y = .error (fault.shift d)

variable {α β γ δ : Type} {d : Shift}

namespace Shifts

variable {f : α → β} {g : γ → δ} {x : Except Fault α} {y : Except Fault β}

theorem pure (a : α) : Shifts d f (Pure.pure a) (Pure.pure (f a)) := rfl

theorem throw (fault : Fault) : Shifts d f (MonadExcept.throw fault : Except Fault α)
    (MonadExcept.throw (fault.shift d)) := rfl

theorem bind {k : α → Except Fault γ} {k' : β → Except Fault δ} (hx : Shifts d f x y)
    (hk : ∀ a, Shifts d g (k a) (k' (f a))) : Shifts d g (x >>= k) (y >>= k') := by
  cases x with
  | error fault =>
    obtain rfl : y = .error (fault.shift d) := hx
    exact rfl
  | ok a =>
    obtain rfl : y = .ok (f a) := hx
    exact hk a

theorem map {h : α → γ} {h' : β → δ} (hx : Shifts d f x y) (hh : ∀ a, h' (f a) = g (h a)) :
    Shifts d g (h <$> x) (h' <$> y) := by
  cases x with
  | error fault =>
    obtain rfl : y = .error (fault.shift d) := hx
    exact rfl
  | ok a =>
    obtain rfl : y = .ok (f a) := hx
    exact congrArg Except.ok (hh a)

/-- A condition that does not depend on the numbers. -/
theorem orThrow {c c' : Prop} [Decidable c] [Decidable c'] {fault fault' : Fault}
    (hc : c' ↔ c) (hfault : fault' = fault.shift d) (hx : Shifts d f x y) :
    Shifts d f (if c then MonadExcept.throw fault >>= fun (_ : Unit) => x else x)
      (if c' then MonadExcept.throw fault' >>= fun (_ : Unit) => y else y) := by
  subst hfault
  by_cases h : c
  · rw [if_pos h, if_pos (hc.2 h)]
    exact rfl
  · rw [if_neg h, if_neg fun h' => h (hc.1 h')]
    exact hx

end Shifts

theorem Place.shift_inj {p q : Place} : p.shift d = q.shift d ↔ p = q := by
  cases p <;> cases q <;> simp [shift]

theorem Pointer.shift_inj {p q : Pointer} : p.shift d = q.shift d ↔ p = q := by
  obtain ⟨place, _, _⟩ := p
  obtain ⟨place', _, _⟩ := q
  simp [shift, Place.shift_inj]

namespace Value

theorem shift_inj {v w : Value} : v.shift d = w.shift d ↔ v = w := by
  cases v <;> cases w <;> simp [shift, Pointer.shift_inj]

@[simp] theorem isNull_shift (v : Value) : (v.shift d).isNull = v.isNull := by
  cases v <;> rfl

@[simp] theorem isTrue_shift (v : Value) : (v.shift d).isTrue = v.isTrue := by
  cases v <;> rfl

@[simp] theorem shift_zeroOf (type : TargetType) : (zeroOf type).shift d = zeroOf type := by
  unfold zeroOf
  split
  · rfl
  · split <;> rfl

@[simp] theorem narrow_shift (type : TargetType) (v : Value) :
    (v.shift d).narrow type = (v.narrow type).shift d := by
  cases v <;> rfl

/-- A look-up with the null reference as default. -/
theorem getD_map_shift (vs : Array Value) (i : Nat) :
    (vs.map (·.shift d)).getD i .null = (vs.getD i .null).shift d := by
  rw [Array.getD_eq_getD_getElem?, Array.getD_eq_getD_getElem?, Array.getElem?_map]
  cases vs[i]? <;> rfl

theorem equals_shift (v w : Value) : (v.shift d).equals (w.shift d) = v.equals w := by
  have hbeq : (v.shift d == w.shift d) = (v == w) := by
    rw [Bool.eq_iff_iff, beq_iff_eq, beq_iff_eq, shift_inj]
  cases v <;> cases w <;> first | exact hbeq | rfl

theorem shifts_asInt (v : Value) : Shifts d id v.asInt (v.shift d).asInt := by
  cases v <;> rfl

theorem shifts_asObject (v : Value) : Shifts d (d.objects + ·) v.asObject (v.shift d).asObject := by
  cases v <;> rfl

theorem shifts_asPointer (v : Value) : Shifts d (·.shift d) v.asPointer (v.shift d).asPointer := by
  cases v with
  | int n => unfold asPointer shift; dsimp only; split <;> rfl
  | _ => rfl

end Value

/-! ## Operations on values -/

theorem BinaryInstr.shifts_onInts (op : BinaryInstr) (m n : Int64) :
    Shifts d id (op.onInts m n) (op.onInts m n) := by
  cases op <;> unfold onInts <;> dsimp only <;> (try split) <;> rfl

theorem BinaryInstr.shifts_apply (op : BinaryInstr) (v w : Value) :
    Shifts d (·.shift d) (op.apply v w) (op.apply (v.shift d) (w.shift d)) := by
  cases v <;> cases w
  case int.int m n => exact (op.shifts_onInts m n).map fun _ => rfl
  case pointer.pointer p q =>
    cases op with
    | sub =>
      change Shifts d _ (if p.place = q.place then _ else _)
        (if p.place.shift d = q.place.shift d then _ else _)
      by_cases h : p.place = q.place
      · rw [if_pos h, if_pos (Place.shift_inj.2 h)]
        rfl
      · rw [if_neg h, if_neg (mt Place.shift_inj.1 h)]
        rfl
    | _ => rfl
  all_goals cases op <;> rfl

theorem CompareInstr.shifts_unordered (op : CompareInstr) (v w : Value) :
    Shifts d id (op.unordered v w) (op.unordered (v.shift d) (w.shift d)) := by
  cases op <;> simp [unordered, Value.equals_shift] <;> rfl

theorem CompareInstr.shifts_apply (op : CompareInstr) (v w : Value) :
    Shifts d id (op.apply v w) (op.apply (v.shift d) (w.shift d)) := by
  have hunordered := @shifts_unordered d op v w
  cases v <;> cases w
  case pointer.pointer p q =>
    change Shifts d _ (if p.place = q.place then _ else _)
      (if p.place.shift d = q.place.shift d then _ else _)
    by_cases h : p.place = q.place
    · rw [if_pos h, if_pos (Place.shift_inj.2 h)]
      rfl
    · rw [if_neg h, if_neg (mt Place.shift_inj.1 h)]
      exact hunordered
  case int.int => rfl
  all_goals exact hunordered

theorem TargetType.shifts_elementSize (type : TargetType) :
    Shifts d id type.elementSize type.elementSize := by
  unfold elementSize
  split <;> rfl

/-! ## Heaps -/

namespace Heap

variable (base h : Heap)

theorem getElem?_objects_after (id : Nat) :
    (base.after h).objects[base.room.objects + id]? = h.objects[id]?.map (·.shift base.room) := by
  simp [after, room, Array.getElem?_append_right]

theorem getElem?_blocks_after (id : Nat) :
    (base.after h).blocks[base.room.blocks + id]? = h.blocks[id]? := by
  simp [after, room, Array.getElem?_append_right]

/-- An object changed behind other ones. -/
theorem after_setObject (id : Nat) (o : HeapObject) :
    base.after { h with objects := h.objects.setIfInBounds id o } =
      { base.after h with
        objects := (base.after h).objects.setIfInBounds (base.room.objects + id)
          (o.shift base.room) } := by
  simp [after, room, Array.setIfInBounds_append_right, Array.map_setIfInBounds]

/-- A block changed behind other ones. -/
theorem after_setBlock (id : Nat) (b : Block) :
    base.after { h with blocks := h.blocks.setIfInBounds id b } =
      { base.after h with
        blocks := (base.after h).blocks.setIfInBounds (base.room.blocks + id) b } := by
  simp [after, room, Array.setIfInBounds_append_right]

theorem after_addObject (o : HeapObject) :
    base.after (h.addObject o) = (base.after h).addObject (o.shift base.room) := by
  simp [after, addObject]

theorem after_addBlock (bytes : List UInt8) :
    base.after (h.addBlock bytes) = (base.after h).addBlock bytes := by
  simp [after, addBlock]

theorem shifts_object (id : Nat) : Shifts base.room (·.shift base.room) (h.object id)
    ((base.after h).object (base.room.objects + id)) := by
  unfold object
  rw [getElem?_objects_after]
  cases h.objects[id]? <;> rfl

theorem shifts_string (id : Nat) : Shifts base.room (fun text => text) (h.string id)
    ((base.after h).string (base.room.objects + id)) := by
  refine (shifts_object base h id).bind fun o => ?_
  cases o <;> rfl

theorem shifts_array (id : Nat) :
    Shifts base.room (fun (element, elements) => (element, elements.map (·.shift base.room)))
      (h.array id) ((base.after h).array (base.room.objects + id)) := by
  refine (shifts_object base h id).bind fun o => ?_
  cases o <;> rfl

theorem shifts_setElements (id : Nat) (elements : Array Value) :
    Shifts base.room base.after (h.setElements id elements)
      ((base.after h).setElements (base.room.objects + id)
        (elements.map (·.shift base.room))) := by
  refine (shifts_object base h id).bind fun o => ?_
  cases o with
  | string text => rfl
  | array element old pins =>
    exact congrArg Except.ok (after_setObject base h id (.array element elements pins)).symm

theorem pins?_after (id : Nat) : (base.after h).pins? (base.room.objects + id) = h.pins? id := by
  unfold pins?
  rw [getElem?_objects_after]
  rcases h.objects[id]? with _ | ⟨_ | _⟩ <;> rfl

theorem isPinned_after (id : Nat) :
    (base.after h).isPinned (base.room.objects + id) = h.isPinned id := by
  rw [isPinned, pins?_after, isPinned]

theorem shifts_changePins (id : Nat) (change : Nat → Nat) :
    Shifts base.room base.after (h.changePins id change)
      ((base.after h).changePins (base.room.objects + id) change) := by
  unfold changePins
  rw [getElem?_objects_after]
  rcases h.objects[id]? with _ | ⟨text | ⟨element, elements, pins⟩⟩
  · rfl
  · rfl
  · exact congrArg Except.ok (after_setObject base h id (.array element elements (change pins))).symm

theorem shifts_block (id : Nat) : Shifts base.room (fun bytes => bytes) (h.block id)
    ((base.after h).block (base.room.blocks + id)) := by
  unfold block
  rw [getElem?_blocks_after]
  rcases h.blocks[id]? with _ | ⟨_ | _⟩ <;> rfl

theorem shifts_free (id : Nat) : Shifts base.room base.after (h.free id)
    ((base.after h).free (base.room.blocks + id)) := by
  unfold free
  rw [getElem?_blocks_after]
  rcases h.blocks[id]? with _ | ⟨bytes | _⟩
  · rfl
  · exact congrArg Except.ok (after_setBlock base h id .freed).symm
  · rfl

theorem shifts_checkAccess (p : Pointer) : Shifts base.room id (h.checkAccess p)
    ((base.after h).checkAccess (p.shift base.room)) := by
  obtain ⟨block | object, offset, managed⟩ := p
  · rfl
  · change Shifts _ _ (if managed || h.isPinned object then _ else _)
      (if managed || (base.after h).isPinned (base.room.objects + object) then _ else _)
    rw [isPinned_after]
    split <;> rfl

theorem shifts_elementIndex (id : Nat) (offset : Int64) :
    Shifts base.room (fun index => index) (h.elementIndex id offset)
      ((base.after h).elementIndex (base.room.objects + id) offset) := by
  refine (shifts_array base h id).bind fun (element, elements) => ?_
  refine element.shifts_elementSize.bind fun size => ?_
  refine .orThrow Iff.rfl (by simp [Fault.shift]) ?_
  exact .orThrow (by simp) (by simp [Fault.shift]) (.pure _)

theorem shifts_nativeStart (size : Nat) (offset : Int64) (width : Nat) :
    Shifts d (fun start => start) (nativeStart size offset width)
      (nativeStart size offset width) := by
  unfold nativeStart
  split <;> rfl

theorem shifts_load (p : Pointer) (type : TargetType) :
    Shifts base.room (·.shift base.room) (h.load p type)
      ((base.after h).load (p.shift base.room) type) := by
  refine (shifts_checkAccess base h p).bind fun _ => ?_
  obtain ⟨block | object, offset, managed⟩ := p
  · refine .orThrow Iff.rfl rfl ?_
    refine (shifts_block base h block).bind fun bytes => type.shifts_elementSize.bind fun width => ?_
    exact (shifts_nativeStart _ _ _).bind fun start => .pure _
  · refine (shifts_elementIndex base h object offset).bind fun index => ?_
    refine (shifts_array base h object).bind fun (element, elements) => ?_
    exact congrArg Except.ok (Value.getD_map_shift elements index)

theorem shifts_store (p : Pointer) (type : TargetType) (v : Value) :
    Shifts base.room base.after (h.store p type v)
      ((base.after h).store (p.shift base.room) type (v.shift base.room)) := by
  refine (shifts_checkAccess base h p).bind fun _ => ?_
  obtain ⟨block | object, offset, managed⟩ := p
  · refine .orThrow Iff.rfl rfl ?_
    refine type.shifts_elementSize.bind fun width => v.shifts_asInt.bind fun n => ?_
    refine (shifts_block base h block).bind fun bytes => ?_
    refine (shifts_nativeStart _ _ _).bind fun start => ?_
    exact congrArg Except.ok (after_setBlock base h block (.live _)).symm
  · refine (shifts_elementIndex base h object offset).bind fun index => ?_
    refine (shifts_array base h object).bind fun (element, elements) => ?_
    have hset := shifts_setElements base h object
      (elements.setIfInBounds index (v.narrow element))
    rw [Array.map_setIfInBounds, ← Value.narrow_shift] at hset
    exact hset

end Heap

end ManagedC
