import ManagedC.Proofs.Emit.Answers
import ManagedC.Proofs.Meaning.Coercions
import ManagedC.Proofs.Pointers.Outcomes
import ManagedC.Syntax.Construct

/-!
# Elements and the arithmetic of pointers

A subscript and the dereference of a sum are one thing, in either order of the pointer and the index
(`Expression.Accesses`). A pointer that is moved by some steps leads to another slot of its array,
or to another byte of its block; what it leads to there is in `Heap.slot` and `Heap.integerAt`. All
this is said of expressions wherever they are compiled (`Setting.Evaluates`), and they are compiled
wherever the pointer and the index are. Main statement: `Expression.accesses_agree`.
-/

namespace ManagedC

open Instruction Meaning

/-! ## Steps -/

/-- It is the size of a step of a pointer, in bytes. -/
def IsStepSize (size : Nat) : Prop := size = 1 ∨ size = 2 ∨ size = 4 ∨ size = 8

namespace CType

variable {element : CType} {stored : TargetType} {size : Nat}

/-- A type of elements has one size for the compiler and for the machine. -/
theorem exists_size (htarget : element.target = .ok stored) (hvoid : element.isVoid = false) :
    ∃ size, element.size? = some size ∧ stored.size? = some size ∧ IsStepSize size := by
  unfold IsStepSize
  cases element with
  | primitive kind =>
    cases kind <;> cases htarget <;> first | exact ⟨_, rfl, rfl, by decide⟩ | cases hvoid
  | pointer target =>
    obtain ⟨stored, rfl⟩ := target_pointer htarget
    exact ⟨8, rfl, rfl, by decide⟩
  | array | struct | named => cases htarget

/-- A pointer to what has a type has a type. -/
theorem exists_target_pointer (htarget : element.target = .ok stored) :
    ∃ type, (CType.pointer element).target = .ok type := by
  unfold target
  split
  · exact ⟨_, rfl⟩
  · exact ⟨_, rfl⟩
  · rename_i heq
    cases heq
    rw [htarget]
    exact ⟨_, rfl⟩
  · rename_i h
    exact absurd rfl (h element)

theorem stepSize_pointer (hsize : element.size? = some size) :
    (CType.pointer element).stepSize = Int32.ofNat size := by
  unfold stepSize
  show ((element.size?).map Int32.ofNat).getD 1 = _
  rw [hsize]
  rfl

theorem isInteger_arithmeticResult (left right : CType) : (arithmeticResult left right).isInteger = true := by
  unfold arithmeticResult
  split <;> rfl

/-- A pointer moves by the size of what it leads to. -/
theorem steps_of_size (helement : element.size? = some size) (hsize : IsStepSize size) :
    (CType.pointer element).Steps (Int32.ofNat size) := by
  refine ⟨size, helement, ?_, rfl⟩
  rcases hsize with rfl | rfl | rfl | rfl <;> decide

end CType

/-- Every type of integers has a format. -/
theorem Meaning.IntegerFormat.exists_of_isInteger {type : CType} (h : type.isInteger = true) :
    ∃ f, IntegerFormat.of? type = some f := by
  cases type with
  | primitive kind => cases kind <;> first | exact ⟨_, rfl⟩ | cases h
  | pointer | array | struct | named => cases h

namespace IsStepSize

variable {size : Nat} {n : Int64}

theorem pos (h : IsStepSize size) : 0 < size := by
  rcases h with rfl | rfl | rfl | rfl <;> decide

theorem toInt_ofNat (h : IsStepSize size) : (Int64.ofNat size).toInt = size := by
  rcases h with rfl | rfl | rfl | rfl <;> rfl

/-- So many steps in bytes are so many steps if there is no overflow. -/
theorem mul_div (h : IsStepSize size) (hfits : Width.long.Fits (n.toInt * size)) :
    n * Int64.ofNat size / Int64.ofNat size = n := by
  have hbytes : (n * Int64.ofNat size).toInt = n.toInt * size := by
    rw [Int64.toInt_mul, h.toInt_ofNat]
    exact Width.wrap_of_fits hfits
  apply Int64.toInt_inj.1
  rw [Int64.toInt_div, hbytes, h.toInt_ofNat, Int.mul_tdiv_cancel _ (by have := h.pos; omega),
    Int64.toInt_bmod]

end IsStepSize

theorem Pointer.move_move (p : Pointer) (m n : Int64) : (p.move m).move n = p.move (m + n) :=
  congrArg (fun offset => { p with offset := offset }) (Int64.add_assoc p.offset m n)

namespace Value

variable {size : Nat}

/-- So many steps are so many bytes. -/
theorem scale_int (hsize : IsStepSize size) (n : Int64) :
    scale (Int32.ofNat size) (.int n) = .ok (.int (n * Int64.ofNat size)) := by
  rcases hsize with rfl | rfl | rfl | rfl
  · show Except.ok (Value.int n) = _
    rw [show Int64.ofNat 1 = 1 from rfl, Int64.mul_one]
  all_goals rfl

/-- So many bytes are so many steps. -/
theorem unscale_int (hsize : IsStepSize size) (n : Int64) :
    unscale (Int32.ofNat size) (.int n) = .ok (.int (n / Int64.ofNat size)) := by
  rcases hsize with rfl | rfl | rfl | rfl
  · show Except.ok (Value.int n) = _
    rw [show Int64.ofNat 1 = 1 from rfl, Int64.div_one]
  all_goals rfl

/-- It does not matter whether a number is added to a value or the value to the number. -/
theorem operate_add_comm (n : Int64) (v : Value) :
    (Value.int n).operate .add v = v.operate .add (.int n) := by
  cases v with
  | int m =>
    show Except.ok (Value.int (n + m)) = .ok (.int (m + n))
    rw [Int64.add_comm]
  | null | float | object | pointer => rfl

end Value

namespace BinaryOp

variable {element index index' : CType} {size : Nat} (hindex : index.isInteger = true)
  (helement : element.size? = some size) (hsize : IsStepSize size)

include hindex

theorem resultType_steps (op : ArithmeticOp) :
    (BinaryOp.arithmetic op).resultType (.pointer element) index = .pointer element := by
  unfold resultType
  rw [CType.isPointer_of_isInteger hindex]
  rfl

theorem resultType_stepsFirst (op : ArithmeticOp) :
    (BinaryOp.arithmetic op).resultType index (.pointer element) = .pointer element := by
  unfold resultType
  rw [CType.isPointer_of_isInteger hindex]
  rfl

theorem combine_integers (hindex' : index'.isInteger = true) (n m : Int64) :
    (BinaryOp.arithmetic .add).combine index index' (.int n) (.int m) = .ok (.int (n + m)) := by
  unfold combine CType.unifyRight CType.unifyLeft
  rw [CType.isPointer_of_isInteger hindex, CType.isPointer_of_isInteger hindex']
  cases (CType.arithmeticResult index index').isLong <;> cases index.isLong <;> cases index'.isLong <;> rfl

theorem isInteger_resultType (hindex' : index'.isInteger = true) (op : ArithmeticOp) :
    ((BinaryOp.arithmetic op).resultType index index').isInteger = true := by
  unfold resultType
  rw [CType.isPointer_of_isInteger hindex, CType.isPointer_of_isInteger hindex']
  exact CType.isInteger_arithmeticResult index index'

include helement hsize

/-- A pointer is moved by a number of steps. -/
theorem combine_steps (v : Value) (n : Int64) :
    (BinaryOp.arithmetic .add).combine (.pointer element) index v (.int n) =
      v.operate .add (.int (n * Int64.ofNat size)) := by
  unfold combine
  rw [CType.isPointer_of_isInteger hindex, CType.stepSize_pointer helement]
  show ((Value.int n).scale (Int32.ofNat size) >>= fun w => v.operate .add w) = _
  rw [Value.scale_int hsize]
  rfl

/-- So it is if the number comes first. -/
theorem combine_stepsFirst (v : Value) (n : Int64) :
    (BinaryOp.arithmetic .add).combine index (.pointer element) (.int n) v =
      v.operate .add (.int (n * Int64.ofNat size)) := by
  unfold combine
  rw [CType.isPointer_of_isInteger hindex, CType.stepSize_pointer helement]
  show ((Value.int n).scale (Int32.ofNat size) >>= fun u => u.operate .add v) = _
  rw [Value.scale_int hsize]
  exact Value.operate_add_comm _ v

end BinaryOp

/-- The distance of a pointer and the same pointer moved. -/
theorem BinaryOp.combine_distance {element : CType} {size : Nat} (helement : element.size? = some size)
    (hsize : IsStepSize size) (q : Pointer) (bytes : Int64) :
    (BinaryOp.arithmetic .sub).combine (.pointer element) (.pointer element) (.pointer (q.move bytes))
      (.pointer q) = .ok (.int (bytes / Int64.ofNat size)) := by
  have hdistance : (Value.pointer (q.move bytes)).operate .sub (.pointer q) = .ok (.int bytes) := by
    unfold Value.operate BinaryInstr.apply
    show ((if q.place = q.place then _ else _ : Except Fault Value).mapError Fault.kind) = _
    rw [if_pos rfl]
    show Except.ok (Value.int (q.offset + bytes - q.offset)) = _
    rw [Int64.add_comm, Int64.add_sub_cancel]
  unfold combine
  rw [CType.stepSize_pointer helement]
  show ((Value.pointer (q.move bytes)).operate .sub (.pointer q) >>= fun v =>
    v.unscale (Int32.ofNat size)) = _
  rw [hdistance]
  exact Value.unscale_int hsize bytes

/-! ## Memory -/

namespace Heap

/-- A pointer may be used, and it leads to a slot of an array whose elements have a size, or to where the slot
would be. -/
structure AtSlot (h : Heap) (p : Pointer) (size : Nat) (elements : Array Value) (k : Int) : Prop where
  object : ∃ id element pins, p.place = .array id ∧
    h.objects[id]? = some (.array element elements pins) ∧ 0 < pins ∧ element.size? = some size
  offset : p.offset.toInt = k * size

/-- A pointer leads to a byte of a block in use, or to where the byte would be. -/
structure AtByte (h : Heap) (p : Pointer) (bytes : List UInt8) (start : Int) : Prop where
  block : ∃ id, p.place = .native id ∧ h.blocks[id]? = some (.live bytes)
  offset : p.offset.toInt = start

/-- What is in a slot, or the sort of fault if there is no such slot. -/
def slot (elements : Array Value) (k : Int) : Except Fault.Kind Value :=
  if k < 0 then .error .outOfBounds
  else if k < elements.size then .ok (elements.getD k.toNat .null)
  else .error .indexOutOfRange

/-- The integer of a format at a byte, with its lowest byte first, or the sort of fault if not all of its
bytes are there. -/
def integerAt (f : IntegerFormat) (size : Nat) (bytes : List UInt8) (start : Int) :
    Except Fault.Kind Value :=
  if 0 ≤ start ∧ start + size ≤ bytes.length then
    .ok (.int (Int64.ofInt (f.reduce (natOfBytes ((bytes.drop start.toNat).take size)))))
  else .error .outOfBounds

variable {h : Heap} {p : Pointer} {type : TargetType} {size : Nat} {elements : Array Value}
  {bytes : List UInt8} {k start : Int} {n : Int64}

theorem toInt_move (hfits : Width.long.Fits (p.offset.toInt + n.toInt * size))
    (hsize : IsStepSize size) :
    (p.move (n * Int64.ofNat size)).offset.toInt = p.offset.toInt + n.toInt * size := by
  show (p.offset + n * Int64.ofNat size).toInt = _
  rw [Int64.toInt_add, Int64.toInt_mul, hsize.toInt_ofNat, Int.add_bmod_bmod]
  exact Width.wrap_of_fits hfits

theorem AtSlot.move (hp : h.AtSlot p size elements k)
    (hfits : Width.long.Fits (p.offset.toInt + n.toInt * size))
    (hsize : IsStepSize size) :
    h.AtSlot (p.move (n * Int64.ofNat size)) size elements (k + n.toInt) := by
  refine ⟨hp.object, ?_⟩
  rw [toInt_move hfits hsize, hp.offset, Int.add_mul]

theorem AtByte.move (hp : h.AtByte p bytes start)
    (hfits : Width.long.Fits (p.offset.toInt + n.toInt * size))
    (hsize : IsStepSize size) :
    h.AtByte (p.move (n * Int64.ofNat size)) bytes (start + n.toInt * size) := by
  refine ⟨hp.block, ?_⟩
  rw [toInt_move hfits hsize, hp.offset]

/-- The element of a slot is loaded whatever the type of the access is. -/
theorem AtSlot.load (hp : h.AtSlot p size elements k) (type : TargetType) :
    (h.load p type).mapError Fault.kind = slot elements k := by
  obtain ⟨⟨id, element, pins, hplace, hobject, hpins, hsize⟩, hoffset⟩ := hp
  have hpos : (0 : Int) < size := Int.natCast_pos.2 (TargetType.size_pos hsize)
  have haccess : h.checkAccess p = .ok () := by
    refine checkAccess_eq_ok.2 fun id' hid => .inr ?_
    obtain rfl : id = id' := by
      rw [hplace] at hid
      exact Place.array.inj hid
    exact (isPinned_of_object hobject).2 hpins
  have hload : h.load p type = (h.elementIndex id p.offset >>= fun index => do
      return (← h.array id).2.getD index .null) := by
    unfold Heap.load
    rw [haccess, hplace]
    rfl
  have hindex : h.elementIndex id p.offset = (do
      if p.offset < 0 || decide (p.offset.toInt % size ≠ 0) then
        throw (.outOfBounds p.offset (elements.size * size))
      let index := p.offset.toInt.toNat / size
      if elements.size ≤ index then throw (.indexOutOfRange (Int64.ofNat index) elements.size)
      return index) := by
    unfold elementIndex
    rw [array_eq_ok.2 ⟨pins, hobject⟩]
    show (element.elementSize >>= fun size => _) = _
    rw [TargetType.elementSize_eq_ok.2 hsize]
    rfl
  unfold slot
  by_cases hneg : k < 0
  · have hbefore : p.offset < 0 := by
      rw [Int64.lt_iff_toInt_lt, hoffset]
      exact Int.mul_neg_of_neg_of_pos hneg hpos
    rw [if_pos hneg, hload, hindex, if_pos (by simp [hbefore])]
    rfl
  · rw [if_neg hneg]
    obtain ⟨index, rfl⟩ := Int.eq_ofNat_of_zero_le (Int.not_lt.1 hneg)
    by_cases hlt : (index : Int) < elements.size
    · have helement : h.AtElement p id element elements pins index :=
        ⟨hplace, hobject, .inr hpins, Int.ofNat_lt.1 hlt, size, hsize, hoffset⟩
      rw [if_pos hlt, helement.load]
      rfl
    · have hnat : p.offset.toInt.toNat / size = index := by
        rw [hoffset, ← Int.natCast_mul, Int.toNat_natCast,
          Nat.mul_div_cancel _ (TargetType.size_pos hsize)]
      have hstart : ¬ (decide (p.offset < 0) || decide (p.offset.toInt % size ≠ 0)) = true := by
        have hnonneg : (0 : Int) ≤ index * size :=
          Int.mul_nonneg (Int.natCast_nonneg _) (Int.natCast_nonneg _)
        simp [Int64.lt_iff_toInt_lt, hoffset, hnonneg]
      rw [if_neg hlt, hload, hindex, if_neg hstart]
      dsimp only
      rw [hnat, if_pos (by omega)]
      rfl

/-- An integer is loaded if the access is one of integers. -/
theorem AtByte.load {element : CType} {stored : TargetType} {f : IntegerFormat}
    (hp : h.AtByte p bytes start) (hf : IntegerFormat.of? element = some f)
    (htarget : element.target = .ok stored) (hsize : stored.size? = some size) :
    (h.load p stored).mapError Fault.kind = integerAt f size bytes start := by
  obtain ⟨⟨id, hplace, hblock⟩, hoffset⟩ := hp
  have hinteger : stored.isInteger = true := by
    unfold IntegerFormat.of? at hf
    split at hf <;> cases hf <;> cases htarget <;> rfl
  have hload : h.load p stored = (nativeStart bytes.length p.offset size >>= fun start =>
      return .int (stored.narrow (Int64.ofNat (natOfBytes ((bytes.drop start).take size))))) := by
    have haccess : h.checkAccess p = .ok () := by
      refine checkAccess_eq_ok.2 fun id' hid => ?_
      rw [hplace] at hid
      cases hid
    unfold Heap.load
    rw [haccess, hplace]
    show (if (!stored.isInteger) = true then _ else _) = _
    rw [hinteger, block_eq_ok.2 hblock, TargetType.elementSize_eq_ok.2 hsize]
    rfl
  unfold integerAt
  by_cases hin : 0 ≤ start ∧ start + size ≤ bytes.length
  · obtain ⟨first, rfl⟩ := Int.eq_ofNat_of_zero_le hin.1
    have hstart : nativeStart bytes.length p.offset size = .ok first :=
      nativeStart_eq_ok.2 ⟨hoffset, by omega⟩
    have hnarrow : ∀ bits : Nat, stored.narrow (Int64.ofNat bits) = Int64.ofInt (f.reduce bits) := by
      intro bits
      rw [CType.narrow_eq_reduce hf htarget, ← Int64.ofInt_eq_ofNat, IntegerFormat.reduce_word]
    rw [if_pos hin, hload, hstart, Int.toNat_natCast, ← hnarrow]
    rfl
  · have hout : (decide (p.offset < 0) || decide (bytes.length < p.offset.toInt.toNat + size)) = true := by
      simp only [Bool.or_eq_true, decide_eq_true_eq, Int64.lt_iff_toInt_lt, hoffset]
      show start < 0 ∨ _
      omega
    rw [if_neg hin, hload]
    unfold nativeStart
    rw [if_pos hout]
    rfl

end Heap

/-! ## Expressions -/

/-- The expression is the element of a pointer at an index, in one of four ways to write it. -/
inductive Expression.Accesses (pointer index : Expression) : Expression → Prop where
  | subscript {span : Span} : Accesses pointer index (.subscript span pointer index)
  /-- The dereference of a sum. -/
  | dereference {span span' : Span} : Accesses pointer index
    (.unary span .dereference (.binary span' (.arithmetic .add) pointer index))
  | subscriptFirst {span : Span} : Accesses pointer index (.subscript span index pointer)
  /-- The dereference of a sum with the index first. -/
  | dereferenceFirst {span span' : Span} : Accesses pointer index
    (.unary span .dereference (.binary span' (.arithmetic .add) index pointer))

namespace Setting

variable {E : Setting} {p i j e : Expression} {span span' : Span} {element index index' : CType}
  {stored : TargetType} {size : Nat} {v : Value} {n m : Int64}

namespace Gives

/-- What an arithmetic operator makes of two values. -/
theorem arithmetic {x y : Expression} {left right : CType} {w : Value} (op : ArithmeticOp)
    (hx : E.Gives x left (.ok v)) (hy : E.Gives y right (.ok w)) :
    E.Gives (.binary span (.arithmetic op) x y) ((BinaryOp.arithmetic op).resultType left right)
      ((BinaryOp.arithmetic op).combine left right v w) := by
  have hresult : E.Gives (.binary span (.arithmetic op) x y) _ _ := hx.operator nofun hy
  exact hresult

section

variable (hp : E.Gives p (.pointer element) (.ok v)) (hi : E.Gives i index (.ok (.int n)))
  (hindex : index.isInteger = true) (helement : element.size? = some size)
  (hsize : IsStepSize size)

include hp hi hindex helement hsize

/-- A pointer and a number of steps. -/
theorem steps : E.Gives (.binary span (.arithmetic .add) p i) (.pointer element)
    (v.operate .add (.int (n * Int64.ofNat size))) := by
  have hsum : E.Gives (.binary span (.arithmetic .add) p i) _ _ := hp.arithmetic .add hi
  rwa [BinaryOp.resultType_steps hindex, BinaryOp.combine_steps hindex helement hsize] at hsum

/-- A number of steps and a pointer. -/
theorem stepsFirst : E.Gives (.binary span (.arithmetic .add) i p) (.pointer element)
    (v.operate .add (.int (n * Int64.ofNat size))) := by
  have hsum : E.Gives (.binary span (.arithmetic .add) i p) _ _ := hi.arithmetic .add hp
  rwa [BinaryOp.resultType_stepsFirst hindex, BinaryOp.combine_stepsFirst hindex helement hsize] at hsum

/-- The element at an index is what the moved pointer leads to. -/
theorem access (htarget : element.target = .ok stored) (he : p.Accesses i e) :
    E.Gives e element (v.operate .add (.int (n * Int64.ofNat size)) >>= E.load stored) := by
  cases he with
  | @subscript span =>
    have hread : E.Gives (.unary span .dereference (.binary span (.arithmetic .add) p i)) _ _ :=
      (hp.steps hi hindex helement hsize).dereference htarget
    exact hread.subscript
  | dereference => exact (hp.steps hi hindex helement hsize).dereference htarget
  | @subscriptFirst span =>
    have hread : E.Gives (.unary span .dereference (.binary span (.arithmetic .add) i p)) _ _ :=
      (hp.stepsFirst hi hindex helement hsize).dereference htarget
    exact hread.subscript
  | dereferenceFirst => exact (hp.stepsFirst hi hindex helement hsize).dereference htarget

/-- How far a pointer has been moved. -/
theorem distance {q : Pointer} (hpointer : v = .pointer q) (hfits : Width.long.Fits (n.toInt * size)) :
    E.Gives (.binary span (.arithmetic .sub) (.binary span' (.arithmetic .add) p i) p) .long
      (.ok (.int n)) := by
  subst hpointer
  have hmoved : E.Gives (.binary span' (.arithmetic .add) p i) (.pointer element)
      (.ok (.pointer (q.move (n * Int64.ofNat size)))) := hp.steps hi hindex helement hsize
  have hdistance : E.Gives (.binary span (.arithmetic .sub) (.binary span' (.arithmetic .add) p i) p) _ _ :=
    hmoved.arithmetic .sub hp
  rwa [BinaryOp.combine_distance helement hsize, hsize.mul_div hfits] at hdistance

variable (hj : E.Gives j index' (.ok (.int m))) (hindex' : index'.isInteger = true)

include hj hindex'

/-- A pointer that is moved twice. -/
theorem twice {q : Pointer} (hpointer : v = .pointer q) :
    E.Gives (.binary span (.arithmetic .add) (.binary span' (.arithmetic .add) p i) j) (.pointer element)
      (.ok (.pointer (q.move ((n + m) * Int64.ofNat size)))) := by
  subst hpointer
  have hmoved : E.Gives (.binary span' (.arithmetic .add) p i) (.pointer element)
      (.ok (.pointer (q.move (n * Int64.ofNat size)))) := hp.steps hi hindex helement hsize
  rw [Int64.add_mul, ← Pointer.move_move]
  exact hmoved.steps hj hindex' helement hsize

/-- A pointer that is moved by a sum. -/
theorem sum {q : Pointer} (hpointer : v = .pointer q) :
    E.Gives (.binary span (.arithmetic .add) p (.binary span' (.arithmetic .add) i j)) (.pointer element)
      (.ok (.pointer (q.move ((n + m) * Int64.ofNat size)))) := by
  subst hpointer
  have hsum : E.Gives (.binary span' (.arithmetic .add) i j) _ _ := hi.arithmetic .add hj
  rw [BinaryOp.combine_integers hindex hindex'] at hsum
  exact hp.steps hsum (BinaryOp.isInteger_resultType hindex hindex' .add) helement hsize

end

end Gives

/-! ## Where the expressions are compiled -/

/-- The expression gives something in the setting. So wherever it is compiled there it has one type, and its
code comes to one value or to one sort of fault. -/
structure Evaluates (E : Setting) (e : Expression) (type : CType) (outcome : Except Fault.Kind Value) :
    Prop extends Gives E e type outcome where
  compiled : ∀ {s t : Scope} {a : Activation} {type' : CType}, E.Has s a → Yields e.compile s type' t →
    t.assembler.method.Extends a.method → type' = type ∧ E.Comes a t a.stack outcome

theorem Gives.evaluates {type : CType} {outcome : Except Fault.Kind Value} (h : E.Gives e type outcome) :
    E.Evaluates e type outcome := by
  refine ⟨h, fun {s t a type'} ha hcompile hM => ?_⟩
  -- the code of a compiled expression is code of the expression
  have hcode := e.code_compile hcompile
  obtain rfl := h.typed ha.sees hcode
  exact ⟨rfl, h.comes hcode ha hM⟩

/-- What becomes of the arithmetic of pointers where a pointer `p` comes to a value, two indices `i`
and `j` come to numbers, and the elements have a size. -/
structure Moves (E : Setting) (p i j : Expression) (element : CType) (size : Nat) (v : Value) (n m : Int64)
    (outcome : Except Fault.Kind Value) : Prop where
  /-- All ways to write the element at the first index come to the same. -/
  accesses : ∀ e, p.Accesses i e → E.Evaluates e element outcome
  /-- A pointer to a slot of a pinned array leads to the slot that is so many slots further on. -/
  slot : ∀ q elements k, v = .pointer q → Width.long.Fits (q.offset.toInt + n.toInt * size) →
    E.store.heap.AtSlot q size elements k → outcome = Heap.slot elements (k + n.toInt)
  /-- A pointer to a byte of a block in use leads to the integer that is so many times the size further on. -/
  integer : ∀ q bytes start, v = .pointer q → element.isInteger = true →
    Width.long.Fits (q.offset.toInt + n.toInt * size) → E.store.heap.AtByte q bytes start →
    ∃ f, IntegerFormat.of? element = some f ∧
      outcome = Heap.integerAt f size bytes (start + n.toInt * size)
  /-- The distance of a moved pointer is the number of steps. -/
  distance : ∀ q span span', v = .pointer q → Width.long.Fits (n.toInt * size) →
    E.Evaluates (.binary span (.arithmetic .sub) (.binary span' (.arithmetic .add) p i) p) .long
      (.ok (.int n))
  /-- Two moves are one by the sum. -/
  sum : ∀ q, v = .pointer q → ∃ moved, ∀ span span',
    E.Evaluates (.binary span (.arithmetic .add) (.binary span' (.arithmetic .add) p i) j) (.pointer element)
      (.ok (.pointer moved)) ∧
    E.Evaluates (.binary span (.arithmetic .add) p (.binary span' (.arithmetic .add) i j)) (.pointer element)
      (.ok (.pointer moved))

/-- The arithmetic of pointers is as it should be. -/
theorem Gives.exists_moves (hp : E.Gives p (.pointer element) (.ok v)) (hi : E.Gives i index (.ok (.int n)))
    (hj : E.Gives j index' (.ok (.int m))) (hindex : index.isInteger = true)
    (hindex' : index'.isInteger = true) (htarget : element.target = .ok stored)
    (helement : element.size? = some size) (hstored : stored.size? = some size) (hsize : IsStepSize size) :
    ∃ outcome, E.Moves p i j element size v n m outcome := by
  refine ⟨_, fun e he => (hp.access hi hindex helement hsize htarget he).evaluates, ?_, ?_, ?_, ?_⟩
  · rintro q elements k rfl hfits hslot
    exact (hslot.move hfits hsize).load stored
  · rintro q bytes start rfl hinteger hfits hbyte
    obtain ⟨f, hf⟩ := IntegerFormat.exists_of_isInteger hinteger
    exact ⟨f, hf, (hbyte.move hfits hsize).load hf htarget hstored⟩
  · rintro q span span' hpointer hfits
    exact (hp.distance hi hindex helement hsize hpointer hfits).evaluates
  · intro q hpointer
    exact ⟨_, fun span span' => ⟨(hp.twice hi hindex helement hsize hj hindex' hpointer).evaluates,
      (hp.sum hi hindex helement hsize hj hindex' hpointer).evaluates⟩⟩

end Setting

namespace Expression

variable {p i j e : Expression} {s : Scope} {element index index' : CType} {stored : TargetType} {size : Nat}
  {span span' : Span}

namespace Compiles

section

variable (hs : s.Allots) (hp : p.Compiles s (.pointer element)) (hi : i.Compiles s index)
  (hindex : index.isInteger = true) (hsteps : (CType.pointer element).Steps (Int32.ofNat size))

include hs hp hi hindex hsteps

/-- A pointer and a number of steps. -/
theorem steps : (binary span (.arithmetic .add) p i).Compiles s (.pointer element) :=
  hp.arithmetic hs hi fun location => .steps location hsteps hindex

variable (htarget : element.target = .ok stored)

include htarget

/-- A number of steps and a pointer. -/
theorem stepsFirst : (binary span (.arithmetic .add) i p).Compiles s (.pointer element) := by
  obtain ⟨type, htype⟩ := CType.exists_target_pointer htarget
  exact hi.arithmetic hs hp fun location => .stepsFirst location hsteps htype hindex

/-- All ways to write an element are compiled. -/
theorem access (hvoid : element.isVoid = false) (he : p.Accesses i e) : e.Compiles s element := by
  cases he with
  | subscript =>
    exact hp.subscript hvoid htarget hs hi (by simp [CType.isPointer, hindex]) fun location =>
      .steps location hsteps hindex
  | dereference => exact (hp.steps hs hi hindex hsteps).dereference hvoid htarget
  | subscriptFirst =>
    obtain ⟨type, htype⟩ := CType.exists_target_pointer htarget
    exact hi.subscript hvoid htarget hs hp (by simp [CType.isPointer, hindex]) fun location =>
      .stepsFirst location hsteps htype hindex
  | dereferenceFirst => exact (hp.stepsFirst hs hi hindex hsteps htarget).dereference hvoid htarget

end

end Compiles

/-- A subscript and the dereference of a sum come to one thing, whichever of the pointer and the index
is first. They are compiled wherever the pointer and the index are. In a call of a compiled function a
pointer and indices without side effects come to something, and where they come to a value and to
numbers, what becomes of their arithmetic is as it should be wherever it is compiled. -/
theorem accesses_agree (p i j : Expression) (hindex : index.isInteger = true)
    (hindex' : index'.isInteger = true) (htarget : element.target = .ok stored)
    (hvoid : element.isVoid = false) :
    ∃ size, element.size? = some size ∧
      (∀ s : Scope, s.Allots → p.Compiles s (.pointer element) → i.Compiles s index →
        (∀ e, p.Accesses i e → e.Compiles s element) ∧
        (∀ span span',
          (binary span (.arithmetic .sub) (binary span' (.arithmetic .add) p i) p).Compiles s .long) ∧
        (j.Compiles s index' → ∀ span span',
          (binary span (.arithmetic .add) (binary span' (.arithmetic .add) p i) j).Compiles s
            (.pointer element) ∧
          (binary span (.arithmetic .add) p (binary span' (.arithmetic .add) i j)).Compiles s
            (.pointer element))) ∧
      (∀ (f : CompiledFunction) (s : Scope) (a : Activation) (program : Module) (store : Store),
        f.Stands s a → p.isPure = true → i.isPure = true → j.isPure = true →
        p.Compiles s (.pointer element) → i.Compiles s index → j.Compiles s index' →
        Setting.Has ⟨program, s, a.kept?, store⟩ s a ∧
          (∃ first, Setting.Gives ⟨program, s, a.kept?, store⟩ p (.pointer element) first) ∧
          (∃ second, Setting.Gives ⟨program, s, a.kept?, store⟩ i index second) ∧
          ∃ third, Setting.Gives ⟨program, s, a.kept?, store⟩ j index' third) ∧
      ∀ (E : Setting) (v : Value) (n m : Int64), E.Gives p (.pointer element) (.ok v) →
        E.Gives i index (.ok (.int n)) → E.Gives j index' (.ok (.int m)) →
        ∃ outcome, E.Moves p i j element size v n m outcome := by
  obtain ⟨size, helement, hstored, hsize⟩ := CType.exists_size htarget hvoid
  have hsteps := CType.steps_of_size helement hsize
  refine ⟨size, helement, fun s hs hp hi => ⟨fun e he => ?_, fun span span' => ?_, fun hj span span' => ?_⟩,
    ?_, ?_⟩
  · exact hp.access hs hi hindex hsteps htarget hvoid he
  · exact (hp.steps hs hi hindex hsteps).arithmetic hs hp fun location => .distance location hsteps
  · exact ⟨(hp.steps hs hi hindex hsteps).steps hs hj hindex' hsteps,
      hp.steps hs (hi.arithmetic hs hj fun location => .integers location hindex hindex')
        (CType.isInteger_arithmeticResult index index') hsteps⟩
  · rintro f s a program store hstands hp hi hj ⟨_, hcp⟩ ⟨_, hci⟩ ⟨_, hcj⟩
    exact ⟨hstands.has program store, hstands.exists_gives hp hcp program store,
      hstands.exists_gives hi hci program store, hstands.exists_gives hj hcj program store⟩
  · intro E v n m hp hi hj
    exact hp.exists_moves hi hj hindex hindex' htarget helement hstored hsize

end Expression

/-! ## An element of a compiled function -/

/-- `int second(int *p) { return p[1]; }` -/
def FunctionUnit.second : FunctionUnit where
  name := "second"
  returnType := .int
  parameters := some ⟨[⟨.pointer .int, some "p"⟩], false, false⟩
  body := .block [.ret (some (Construct.subscript (Construct.name "p") (Construct.int 1))) .unknown]
  location := .unknown

/-- What calls to that function are checked against. -/
def FunctionSignature.second : FunctionSignature :=
  ⟨"second", .int, some [.pointer .int], false, ⟨"second", .int32, [.pointer .int32]⟩⟩

/-- The scope of its body. -/
def Scope.second : Scope :=
  ((Scope.begin .second {}).pushParameter ⟨.pointer .int, some "p"⟩ (.pointer .int32)).openBlock

/-- The scope behind the element that it returns. -/
def Scope.secondRead : Scope := Scope.second.append [] [.loadArgument 0, .constInt32 1, .convNative,
  .constInt32 4, .convNative, .binary .mul, .binary .add, .load .int32]

theorem Expression.compile_second :
    Yields (Construct.subscript (Construct.name "p") (Construct.int 1)).compile .second .int .secondRead :=
  rfl

/-- The compiled function. -/
def CompiledFunction.second : CompiledFunction where
  unit := .second
  returnType := .int32
  signature := .second
  functions := {}
  method := (Scope.secondRead.append [] [.ret]).assembler.method
  returns := rfl
  declared := rfl
  code := by
    have hbody : Body.Code Scope.second [.ret (some _) .unknown] (Scope.secondRead.append [] [.ret]) :=
      .retValue rfl (Expression.code_compile _ Expression.compile_second) (.inl rfl)
    have hparameters : Scope.BindsParameters (.begin .second {}) FunctionUnit.second.parameterList
        ((Scope.begin .second {}).pushParameter ⟨.pointer .int, some "p"⟩ (.pointer .int32)) :=
      .cons rfl (fun _ _ => rfl) .nil
    exact @FunctionUnit.Code.mk _ _ _ _ _ hparameters (.block hbody) (by decide)

/-- A call of the function with a pointer to the first of some numbers. -/
def Activation.second : Activation where
  method := CompiledFunction.second.method
  regions := []
  arguments := #[.pointer ⟨.array 0, 0, false⟩]
  locals := #[]
  stack := []
  pc := 0
  pending := []

/-- Three numbers in an array that is pinned. -/
def Store.second : Store where
  heap := { objects := #[.array .int32 #[.int 7, .int 8, .int 9] 1] }

/-- The setting of that call. -/
def Setting.second : Setting := ⟨default, .second, Activation.second.kept?, .second⟩

/-- The call is where the function reads the element. -/
theorem CompiledFunction.stands_second : second.Stands .second .second where
  visits := .openBlock (.start (.cons rfl (fun _ _ => rfl) .nil))
  kept := ((Scope.emits_append _ _ (by decide)).trans (Scope.emits_append _ [] (by decide))).method
  addressable := ⟨by decide, by decide⟩
  method := rfl
  sized := ⟨rfl, rfl⟩
  pc := rfl

/-- The second of the numbers is read; there is no fourth one, in whatever way it is written. -/
theorem CompiledFunction.comes_second :
    let p := Construct.name "p"
    second.Contains .second (Construct.subscript p (Construct.int 1)) .int .secondRead ∧
      Setting.second.Comes .second .secondRead [] (.ok (.int 8)) ∧
      ∀ e, p.Accesses (Construct.int 3) e → e.Compiles .second .int ∧
        Setting.second.Evaluates e .int (.error .indexOutOfRange) := by
  intro p
  have hp : Setting.second.Gives p (.pointer .int) (.ok (.pointer ⟨.array 0, 0, false⟩)) :=
    @Setting.Gives.read _ _ _ _ ⟨.parameter 0, .pointer .int⟩ rfl rfl
  have hone : Setting.second.Gives (Construct.int 1) .int (.ok (.int 1)) := .literal rfl
  have hthree : Setting.second.Gives (Construct.int 3) .int (.ok (.int 3)) := .literal rfl
  have hslot : Setting.second.store.heap.AtSlot ⟨.array 0, 0, false⟩ 4 #[.int 7, .int 8, .int 9] 0 :=
    ⟨⟨0, .int32, 1, rfl, rfl, by decide, rfl⟩, rfl⟩
  have hallots : Scope.second.Allots := fun label hlabel => by cases hlabel
  have hint : CType.int.isInteger = true := rfl
  have htarget : CType.int.target = .ok .int32 := rfl
  obtain ⟨size, hsize, -, hcall, hmoves⟩ :=
    Expression.accesses_agree p (Construct.int 1) (Construct.int 1) hint hint htarget rfl
  cases hsize
  obtain ⟨hhas, -⟩ := hcall second .second .second default .second stands_second rfl rfl rfl ⟨_, rfl⟩
    ⟨_, rfl⟩ ⟨_, rfl⟩
  obtain ⟨outcome, hmoves⟩ := hmoves .second _ _ _ hp hone hone
  obtain rfl : outcome = .ok (.int 8) := hmoves.slot _ _ _ rfl (by decide) hslot
  have hkept : Scope.secondRead.assembler.method.Extends second.method :=
    (Scope.emits_append _ [] (by decide)).method
  refine ⟨⟨stands_second.visits, Expression.compile_second, hkept⟩,
    ((hmoves.accesses _ .subscript).compiled hhas Expression.compile_second hkept).2, fun e he => ?_⟩
  obtain ⟨size, hsize, hcompiles, -, hmoves⟩ :=
    Expression.accesses_agree p (Construct.int 3) (Construct.int 3) hint hint htarget rfl
  cases hsize
  obtain ⟨outcome, hmoves⟩ := hmoves .second _ _ _ hp hthree hthree
  obtain rfl : outcome = .error .indexOutOfRange := hmoves.slot _ _ _ rfl (by decide) hslot
  exact ⟨(hcompiles .second hallots ⟨_, rfl⟩ ⟨_, rfl⟩).1 e he, hmoves.accesses e he⟩

end ManagedC
