import ManagedC.Proofs.Memory.Freed
import ManagedC.Proofs.Run.Operands

/-!
# Native memory as a store of bytes

A store of an integer writes its lowest bytes, the lowest first, and nothing else (`Heap.Writes`); a load
puts the bytes together again and extends them as the type says (`TargetType.Extends`). Both need a block
that is in use and bytes within it (`Heap.Holds`). Main statement: `Store.nativeMemory`.
-/

namespace ManagedC

open Finset (range)

/-! ## Bytes of integers -/

/-- The byte of an integer at a place, in two's complement. -/
def byteOf (v : Int64) (i : Nat) : UInt8 := UInt8.ofNat (v.toUInt64.toNat / 256 ^ i % 256)

/-- The number that some of the bytes write, the lowest first. -/
def littleEndian (bytes : List UInt8) (start width : Nat) : Nat :=
  ∑ i ∈ range width, (bytes.getD (start + i) 0).toNat * 256 ^ i

theorem getElem?_bytesOf {width i : Nat} (n : Nat) (hi : i < width) :
    (bytesOf width n)[i]? = some (UInt8.ofNat (n / 256 ^ i % 256)) := by
  induction width generalizing n i with
  | zero => omega
  | succ width ih =>
    unfold bytesOf
    cases i with
    | zero => simp
    | succ i =>
      rw [List.getElem?_cons_succ, ih (n / 256) (by omega), Nat.div_div_eq_div_mul, pow_succ, mul_comm 256]

theorem natOfBytes_eq_sum (bytes : List UInt8) :
    natOfBytes bytes = ∑ i ∈ range bytes.length, (bytes.getD i 0).toNat * 256 ^ i := by
  induction bytes with
  | nil => rfl
  | cons b bytes ih =>
    rw [natOfBytes, ih, List.length_cons, Finset.sum_range_succ', Finset.mul_sum, add_comm]
    congr 1
    · apply Finset.sum_congr rfl
      intro i _
      rw [List.getD_cons_succ, pow_succ]
      ring
    · simp

theorem natOfBytes_slice {bytes : List UInt8} {start width : Nat} (h : start + width ≤ bytes.length) :
    natOfBytes ((bytes.drop start).take width) = littleEndian bytes start width := by
  have hlength : ((bytes.drop start).take width).length = width := by
    rw [List.length_take, List.length_drop]
    omega
  rw [natOfBytes_eq_sum, hlength]
  apply Finset.sum_congr rfl
  intro i hi
  have hi := Finset.mem_range.1 hi
  rw [List.getD_eq_getElem?_getD, List.getD_eq_getElem?_getD, List.getElem?_take_of_lt hi,
    List.getElem?_drop]

theorem littleEndian_lt (bytes : List UInt8) (start width : Nat) :
    littleEndian bytes start width < 256 ^ width := by
  induction width with
  | zero => simp [littleEndian]
  | succ width ih =>
    unfold littleEndian at ih ⊢
    rw [Finset.sum_range_succ, pow_succ]
    have hbyte := (bytes.getD (start + width) 0).toNat_lt
    have hmul : (bytes.getD (start + width) 0).toNat * 256 ^ width ≤ 255 * 256 ^ width := by
      apply Nat.mul_le_mul_right
      omega
    omega

namespace TargetType

/-- The values of the type may be negative. -/
def isSigned : TargetType → Bool
  | .int8 | .int16 | .int32 | .int64 | .nativeInt => true
  | _ => false

/-- The integer is a number of so many bytes, extended by its sign or by zeros as the type says. -/
def Extends (type : TargetType) (width n : Nat) (v : Int64) : Prop :=
  if type.isSigned then v.toInt = (n : Int).bmod (256 ^ width) else v.toUInt64.toNat = n

/-- What is cut down to a type that is as wide as the number is extended from it. -/
theorem extends_narrow {type : TargetType} {width n : Nat} (hinteger : type.isInteger = true)
    (hsize : type.size? = some width) (hn : n < 256 ^ width) :
    type.Extends width n (type.narrow (Int64.ofNat n)) := by
  have hword : n < 2 ^ 64 → (Int64.ofNat n).toUInt64.toNat = n := by
    intro h
    rw [Int64.toUInt64_ofNat', UInt64.toNat_ofNat_of_lt' h]
  have hnat : n < 2 ^ 63 → (Int64.ofNat n).toInt = n := by
    intro h
    rw [Int64.toInt_ofNat']
    apply Int.bmod_eq_of_le <;> simp only [Int64.size] <;> omega
  have hsigned : ∀ m : Nat, m = 256 ^ width → m ≤ 2 ^ 32 →
      (Int64.ofInt ((Int64.ofNat n).toInt.bmod m)).toInt = (n : Int).bmod (256 ^ width) := by
    rintro m hm hle
    rw [← hm] at hn ⊢
    have hlow := Int.le_bmod (x := (n : Int)) (m := m) (by omega)
    have hhigh := Int.bmod_lt (x := (n : Int)) (m := m) (by omega)
    rw [hnat (by omega), Int64.toInt_ofInt]
    apply Int.bmod_eq_of_le <;> simp only [Int64.size] <;> omega
  have hunsigned : ∀ m : Nat, m = 256 ^ width → m ≤ 2 ^ 32 →
      (Int64.ofInt ((Int64.ofNat n).toInt % m)).toUInt64.toNat = n := by
    intro m hm hle
    rw [← hm] at hn
    rw [hnat (by omega), Int.emod_eq_of_lt (by omega) (by omega), Int64.ofInt_eq_ofNat]
    exact hword (by omega)
  unfold Extends
  cases type <;> cases hinteger <;> cases hsize <;> simp only [isSigned, if_true, narrow]
  case int8 => exact hsigned (2 ^ 8) (by norm_num) (by norm_num)
  case int16 => exact hsigned (2 ^ 16) (by norm_num) (by norm_num)
  case int32 => exact hsigned (2 ^ 32) (by norm_num) (by norm_num)
  case uint8 => exact hunsigned (2 ^ 8) (by norm_num) (by norm_num)
  case uint16 => exact hunsigned (2 ^ 16) (by norm_num) (by norm_num)
  case uint32 => exact hunsigned (2 ^ 32) (by norm_num) (by norm_num)
  case uint64 => exact hword (by omega)
  case int64 | nativeInt => rw [Int64.toInt_ofNat']

/-- There is only one integer that a number is extended to. -/
theorem Extends.unique {type : TargetType} {width n : Nat} {v w : Int64} (hv : type.Extends width n v)
    (hw : type.Extends width n w) : v = w := by
  unfold Extends at hv hw
  by_cases hsigned : type.isSigned = true
  · rw [if_pos hsigned] at hv hw
    exact Int64.toInt_inj.1 (hv.trans hw.symm)
  · rw [if_neg hsigned] at hv hw
    have hword : v.toUInt64 = w.toUInt64 := UInt64.toNat_inj.1 (hv.trans hw.symm)
    rw [← Int64.toInt64_toUInt64 v, ← Int64.toInt64_toUInt64 w, hword]

end TargetType

/-! ## Accesses -/

namespace Heap

variable {h h' : Heap} {p : Pointer} {type : TargetType} {id start width : Nat} {v : Int64}
  {bytes : List UInt8}

/-- An integer is written into a block, and nothing else happens. -/
structure Writes (h : Heap) (id start width : Nat) (v : Int64) (h' : Heap) : Prop where
  objects : h'.objects = h.objects
  others : ∀ other, other ≠ id → h'.blocks[other]? = h.blocks[other]?
  bytes : ∃ bytes bytes', h.blocks[id]? = some (.live bytes) ∧ h'.blocks[id]? = some (.live bytes') ∧
    bytes'.length = bytes.length ∧ ∀ i, bytes'[i]? =
      if start ≤ i ∧ i < start + width then some (byteOf v (i - start)) else bytes[i]?

/-- Some bytes in the middle are replaced. -/
theorem getElem?_replace (bytes new : List UInt8) (hle : start + new.length ≤ bytes.length) (i : Nat) :
    (bytes.take start ++ new ++ bytes.drop (start + new.length))[i]? =
      if start ≤ i ∧ i < start + new.length then new[i - start]? else bytes[i]? := by
  have htake : (bytes.take start).length = start := by
    rw [List.length_take]
    omega
  by_cases hbefore : i < start
  · rw [if_neg (by omega), List.append_assoc, List.getElem?_append_left (by omega),
      List.getElem?_take_of_lt hbefore]
  · rw [List.append_assoc, List.getElem?_append_right (by omega), htake]
    by_cases hin : i - start < new.length
    · rw [if_pos (by omega), List.getElem?_append_left hin]
    · rw [if_neg (by omega), List.getElem?_append_right (by omega), List.getElem?_drop]
      congr 1
      omega

theorem AtBytes.store (ha : h.AtBytes p type id bytes start width) (v : Int64) :
    h.store p type (.int v) = .ok (h.setBytes id
      (bytes.take start ++ bytesOf width v.toUInt64.toNat ++ bytes.drop (start + width))) := by
  have hcheck : h.checkAccess p = .ok () := by
    refine checkAccess_eq_ok.2 fun id' hplace => ?_
    rw [ha.place] at hplace
    cases hplace
  have hblock := block_eq_ok.2 ha.block
  have hwidth := TargetType.elementSize_eq_ok.2 ha.size
  have hstart := nativeStart_eq_ok.2 ⟨ha.offset, ha.le⟩
  unfold Heap.store
  rw [hcheck, ha.place]
  simp [ha.isInteger, hblock, hwidth, hstart, Value.asInt, bind, Except.bind, pure, Except.pure]

/-- A native access of a width needs a block that is in use and all of its bytes in the block. -/
theorem atBytes_iff (hp : p.place = .native id) (hinteger : type.isInteger = true)
    (hsize : type.size? = some width) : h.AtBytes p type id bytes start width ↔
      h.blocks[id]? = some (.live bytes) ∧ 0 ≤ p.offset.toInt ∧
        p.offset.toInt + width ≤ bytes.length ∧ start = p.offset.toInt.toNat := by
  constructor
  · intro ha
    have hoffset := ha.offset
    have hle := ha.le
    exact ⟨ha.block, by omega, by omega, by omega⟩
  · rintro ⟨hblock, hnonneg, hle, rfl⟩
    exact ⟨hp, hblock, hinteger, hsize, by omega, by omega⟩

theorem AtBytes.writes (ha : h.AtBytes p type id bytes start width)
    (hs : h.store p type (.int v) = .ok h') : h.Writes id start width v h' := by
  have hlength := length_bytesOf width v.toUInt64.toNat
  have hlt := (Array.getElem?_eq_some_iff.1 ha.block).1
  have hle := ha.le
  rw [ha.store v] at hs
  cases hs
  refine ⟨rfl, ?_, bytes, _, ha.block, Array.getElem?_setIfInBounds_self_of_lt hlt, ?_, ?_⟩
  · intro other hother
    exact Array.getElem?_setIfInBounds_ne hother.symm
  · simp only [List.length_append, List.length_take, List.length_drop, hlength]
    omega
  · intro i
    have hreplace : start + (bytesOf width v.toUInt64.toNat).length ≤ bytes.length → _ :=
      fun hle => getElem?_replace bytes (bytesOf width v.toUInt64.toNat) hle i
    rw [hlength] at hreplace
    rw [hreplace hle]
    by_cases hin : start ≤ i ∧ i < start + width
    · rw [if_pos hin, if_pos hin, getElem?_bytesOf _ (by omega)]
      rfl
    · rw [if_neg hin, if_neg hin]

/-- What is loaded is the number that the bytes write, extended as the type says. -/
theorem AtBytes.load_eq_ok (ha : h.AtBytes p type id bytes start width) (x : Value) :
    h.load p type = .ok x ↔ ∃ v, x = .int v ∧ type.Extends width (littleEndian bytes start width) v := by
  have hextends := TargetType.extends_narrow ha.isInteger ha.size (littleEndian_lt bytes start width)
  rw [ha.load, natOfBytes_slice ha.le]
  constructor
  · intro hx
    cases hx
    exact ⟨_, rfl, hextends⟩
  · rintro ⟨v, rfl, hv⟩
    rw [hextends.unique hv]

/-- A native access that succeeds is within a block that is in use. -/
theorem exists_atBytes_of_load (hp : p.place = .native id) {x : Value} (hl : h.load p type = .ok x)
    (hsize : type.size? = some width) : ∃ bytes start, h.AtBytes p type id bytes start width := by
  rcases load_iff.1 hl with ⟨object, element, elements, pins, index, ha, -⟩ |
    ⟨other, bytes, start, size, ha, -⟩
  · have hplace := ha.place
    rw [hp] at hplace
    cases hplace
  · have hplace := ha.place
    rw [hp] at hplace
    cases hplace
    cases hsize.symm.trans ha.size
    exact ⟨bytes, start, ha⟩

theorem exists_atBytes_of_store (hp : p.place = .native id) {x : Value}
    (hs : h.store p type x = .ok h') (hsize : type.size? = some width) :
    ∃ bytes start, h.AtBytes p type id bytes start width := by
  rcases store_cases hs with ⟨object, element, elements, pins, index, ha, -⟩ |
    ⟨other, bytes, start, size, n, ha, -, -⟩
  · have hplace := ha.place
    rw [hp] at hplace
    cases hplace
  · have hplace := ha.place
    rw [hp] at hplace
    cases hplace
    cases hsize.symm.trans ha.size
    exact ⟨bytes, start, ha⟩

/-- An integer is loaded exactly where all its bytes are in a block that is in use. -/
theorem load_native_iff (hp : p.place = .native id) (hinteger : type.isInteger = true)
    (hsize : type.size? = some width) (x : Value) : h.load p type = .ok x ↔ ∃ bytes v,
      h.blocks[id]? = some (.live bytes) ∧ 0 ≤ p.offset.toInt ∧ p.offset.toInt + width ≤ bytes.length ∧
        x = .int v ∧ type.Extends width (littleEndian bytes p.offset.toInt.toNat width) v := by
  constructor
  · intro hl
    obtain ⟨bytes, start, ha⟩ := exists_atBytes_of_load hp hl hsize
    obtain ⟨hblock, hnonneg, hle, rfl⟩ := (atBytes_iff hp hinteger hsize).1 ha
    obtain ⟨v, hx, hv⟩ := (ha.load_eq_ok x).1 hl
    exact ⟨bytes, v, hblock, hnonneg, hle, hx, hv⟩
  · rintro ⟨bytes, v, hblock, hnonneg, hle, hx, hv⟩
    have ha := (atBytes_iff hp hinteger hsize).2 ⟨hblock, hnonneg, hle, rfl⟩
    exact (ha.load_eq_ok x).2 ⟨v, hx, hv⟩

/-- An integer is stored exactly where all its bytes are in a block that is in use. -/
theorem store_native_iff (hp : p.place = .native id) (hinteger : type.isInteger = true)
    (hsize : type.size? = some width) (v : Int64) : (∃ h', h.store p type (.int v) = .ok h') ↔
      ∃ bytes, h.blocks[id]? = some (.live bytes) ∧ 0 ≤ p.offset.toInt ∧
        p.offset.toInt + width ≤ bytes.length := by
  constructor
  · rintro ⟨h', hs⟩
    obtain ⟨bytes, start, ha⟩ := exists_atBytes_of_store hp hs hsize
    obtain ⟨hblock, hnonneg, hle, -⟩ := (atBytes_iff hp hinteger hsize).1 ha
    exact ⟨bytes, hblock, hnonneg, hle⟩
  · rintro ⟨bytes, hblock, hnonneg, hle⟩
    have ha := (atBytes_iff hp hinteger hsize).2 ⟨hblock, hnonneg, hle, rfl⟩
    exact ⟨_, ha.store v⟩

/-- No access of an integer succeeds in a block that was given back, and no other access is native. -/
theorem Freed.accesses (hf : h.Freed id) (hp : p.place = .native id) :
    (type.isInteger = true → h.load p type = .error (.useAfterFree id) ∧
      ∀ v : Int64, h.store p type (.int v) = .error (.useAfterFree id)) ∧
    (type.isInteger = false → h.load p type = .error (.typeMismatch (.nativeLoad type)) ∧
      ∀ x : Value, h.store p type x = .error (.typeMismatch (.nativeStore type))) ∧
    ∀ x : Value, (∀ v, x ≠ .int v) → ∃ m, h.store p type x = .error (.typeMismatch m) := by
  have hcheck : h.checkAccess p = .ok () := by
    refine checkAccess_eq_ok.2 fun id' hplace => ?_
    rw [hp] at hplace
    cases hplace
  have hblock : h.block id = .error (.useAfterFree id) := by
    unfold Heap.block
    rw [hf]
    rfl
  refine ⟨?_, ?_, ?_⟩
  · intro hinteger
    obtain ⟨width, hwidth⟩ : ∃ width, type.elementSize = .ok width := by
      cases type <;> cases hinteger <;> exact ⟨_, rfl⟩
    unfold Heap.load Heap.store
    simp [hcheck, hp, hinteger, hblock, hwidth, Value.asInt, bind, Except.bind, pure, Except.pure]
  · intro hinteger
    unfold Heap.load Heap.store
    simp [hcheck, hp, hinteger, bind, Except.bind, throw, throwThe, MonadExceptOf.throw]
  · intro x hx
    have hint : x.asInt = .error (.typeMismatch (.notInteger x)) := by
      cases x with
      | int v => exact absurd rfl (hx v)
      | _ => rfl
    unfold Heap.store
    rw [hcheck, hp]
    by_cases hinteger : type.isInteger = true
    · obtain ⟨width, hwidth⟩ : ∃ width, type.elementSize = .ok width := by
        cases type <;> cases hinteger <;> exact ⟨_, rfl⟩
      simp [hinteger, hwidth, hint, bind, Except.bind]
    · simp [hinteger, bind, Except.bind, throw, throwThe, MonadExceptOf.throw]

end Heap

namespace Store

/-- Native memory is a store of bytes. An integer is stored exactly where all its bytes are in a block that
is in use; its lowest bytes are written, and nothing else changes; a store that fails changes nothing. An
integer is loaded under the same conditions: it is what the bytes write, extended as the type says. What was
just stored is loaded cut down to the type, and a load of another type or at another offset finds the bytes
that were written and the others. Once a block was given back, each access of an integer to it faults with a
use after free, and every other one because of its type. -/
theorem nativeMemory (s : Store) {id width : Nat} {p : Pointer} {type : TargetType}
    (hp : p.place = .native id) (hinteger : type.isInteger = true) (hsize : type.size? = some width) :
    (∀ v, (∃ h, s.heap.store p type (.int v) = .ok h) ↔ ∃ bytes,
      s.heap.blocks[id]? = some (.live bytes) ∧ 0 ≤ p.offset.toInt ∧
        p.offset.toInt + width ≤ bytes.length) ∧
    (∀ v h, s.heap.store p type (.int v) = .ok h → s.heap.Writes id p.offset.toInt.toNat width v h) ∧
    (∀ (a : Activation) f t, Fails (a.execute (.store type)) s f t → t = s) ∧
    (∀ x, s.heap.load p type = .ok x ↔ ∃ bytes v, s.heap.blocks[id]? = some (.live bytes) ∧
      0 ≤ p.offset.toInt ∧ p.offset.toInt + width ≤ bytes.length ∧ x = .int v ∧
        type.Extends width (littleEndian bytes p.offset.toInt.toNat width) v) ∧
    (∀ v h, s.heap.store p type (.int v) = .ok h →
      h.load p type = .ok ((Value.int v).narrow type) ∧
      ∀ (q : Pointer) (kind : TargetType) size, q.place = .native id → kind.isInteger = true →
        kind.size? = some size → ∀ x, h.load q kind = .ok x ↔ ∃ bytes n,
          h.blocks[id]? = some (.live bytes) ∧ 0 ≤ q.offset.toInt ∧
            q.offset.toInt + size ≤ bytes.length ∧ x = .int n ∧
              kind.Extends size (littleEndian bytes q.offset.toInt.toNat size) n) ∧
    (s.Freed id → ∀ t, s.Later t → ∀ (q : Pointer) (kind : TargetType), q.place = .native id →
      (kind.isInteger = true → t.heap.load q kind = .error (.useAfterFree id) ∧
        ∀ v : Int64, t.heap.store q kind (.int v) = .error (.useAfterFree id)) ∧
      (kind.isInteger = false → t.heap.load q kind = .error (.typeMismatch (.nativeLoad kind)) ∧
        ∀ x : Value, t.heap.store q kind x = .error (.typeMismatch (.nativeStore kind))) ∧
      ∀ x : Value, (∀ v, x ≠ .int v) → ∃ m, t.heap.store q kind x = .error (.typeMismatch m)) := by
  refine ⟨?_, ?_, ?_, ?_, ?_, ?_⟩
  · exact Heap.store_native_iff hp hinteger hsize
  · intro v h hs
    obtain ⟨bytes, start, ha⟩ := Heap.exists_atBytes_of_store hp hs hsize
    obtain ⟨-, -, -, rfl⟩ := (Heap.atBytes_iff hp hinteger hsize).1 ha
    exact ha.writes hs
  · intro a f t hf
    exact Activation.store_of_fails rfl rfl (by simp) hf
  · exact Heap.load_native_iff hp hinteger hsize
  · intro v h hs
    constructor
    · rw [Heap.load_store hs, Heap.cellType, hp]
    · intro q kind size hq hkind hsize'
      exact Heap.load_native_iff hq hkind hsize'
  · intro hfreed t hlater q kind hq
    exact Heap.Freed.accesses (hlater.freed hfreed) hq

/-- A block of four bytes, and one that was given back. -/
def twoBlocks : Store := { heap := { blocks := #[.live [1, 2, 3, 4], .freed] } }

/-- Minus two is written into the middle of four bytes and read again, also together with the byte behind
it; a store without operands fails; and the other block cannot be used. -/
theorem nativeMemory_twoBlocks :
    let p : Pointer := ⟨.native 0, 1, false⟩
    let q : Pointer := ⟨.native 1, 0, false⟩
    let h : Heap := { blocks := #[.live [1, 254, 255, 4], .freed] }
    twoBlocks.heap.store p .int16 (.int (-2)) = .ok h ∧
      twoBlocks.heap.Writes 0 1 2 (-2) h ∧
      (∃ f, Fails ((default : Activation).execute (.store .int16)) twoBlocks f twoBlocks) ∧
      h.load p .int16 = .ok (.int (-2)) ∧
      h.load ⟨.native 0, 2, false⟩ .uint16 = .ok (.int 1279) ∧
      twoBlocks.heap.load q .int32 = .error (.useAfterFree 1) ∧
      twoBlocks.heap.load q (.pointer .uint8) = .error (.typeMismatch (.nativeLoad (.pointer .uint8))) ∧
      ∃ m, twoBlocks.heap.store q .int32 .null = .error (.typeMismatch m) := by
  intro p q h
  have hstore : twoBlocks.heap.store p .int16 (.int (-2)) = .ok h := by decide +kernel
  obtain ⟨-, hwrites, hfails, -, hloads, -⟩ := twoBlocks.nativeMemory (rfl : p.place = .native 0)
    (rfl : TargetType.int16.isInteger = true) rfl
  obtain ⟨-, -, -, -, -, hfreed⟩ := twoBlocks.nativeMemory (rfl : q.place = .native 1)
    (rfl : TargetType.int32.isInteger = true) rfl
  obtain ⟨hinteger, hother⟩ := hfreed rfl twoBlocks .refl q .int32 rfl
  obtain ⟨hload, -⟩ := hloads (-2) h hstore
  refine ⟨hstore, hwrites (-2) h hstore, ?_, hload, ?_, (hinteger rfl).1, ?_, hother.2 .null (by simp)⟩
  · have hempty : Fails ((default : Activation).execute (.store .int16)) twoBlocks _ _ := rfl
    exact ⟨_, hfails _ _ _ hempty ▸ hempty⟩
  · have hextends : TargetType.uint16.Extends 2 (littleEndian [1, 254, 255, 4] 2 2) 1279 := by
      show (1279 : Int64).toUInt64.toNat = littleEndian [1, 254, 255, 4] 2 2
      decide +kernel
    exact ((hloads (-2) h hstore).2 ⟨.native 0, 2, false⟩ .uint16 2 rfl rfl rfl _).2
      ⟨[1, 254, 255, 4], 1279, rfl, by decide, by decide, rfl, hextends⟩
  · exact ((hfreed rfl twoBlocks .refl q (.pointer .uint8) rfl).2.1 rfl).1

/-- Not every access to a block that was given back is a use after free: the type of a pointer is refused
before the block is looked at. -/
theorem load_pointer_twoBlocks : twoBlocks.Freed 1 ∧
    ∃ f, twoBlocks.heap.load ⟨.native 1, 0, false⟩ (.pointer .uint8) = .error f ∧
      f ≠ .useAfterFree 1 := by
  refine ⟨rfl, .typeMismatch (.nativeLoad (.pointer .uint8)), rfl, ?_⟩
  simp

end Store

end ManagedC
