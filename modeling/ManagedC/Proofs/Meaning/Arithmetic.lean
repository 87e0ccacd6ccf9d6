import ManagedC.Compile.Operators
import ManagedC.Machine.Arithmetic
import ManagedC.Proofs.Meaning.Numbers

/-!
# The machine computes with numbers

The machine keeps every number in 64 bits. Where an operation on numbers has a result, the instruction of
the operator has the same one, in whatever width the operation is meant: a result that fits is not
changed by the modulus, and the bits of a narrow number above its width repeat its sign. Main statements:
`Number.onInts_of_arithmetic?` and `Number.narrow_convert`.
-/

namespace ManagedC.Meaning

namespace Number

/-- The number as the machine keeps it. -/
def toInt64 (n : Number) : Int64 := Int64.ofInt n.value

/-- The number as a value of the machine. -/
def toValue (n : Number) : Value := .int n.toInt64

variable {a b c n : Number}

theorem toInt_toInt64 (n : Number) : n.toInt64.toInt = n.value := by
  have h := Width.fits_long.1 n.fits_widen
  exact Int64.toInt_ofInt_of_le (by omega) (by omega)

theorem toInt64_of_of? {w : Width} {v : Int} (h : of? w v = some n) : n.toInt64 = Int64.ofInt v := by
  rw [toInt64, (eq_of_of? h).2]

theorem toInt64_eq_zero : n.toInt64 = 0 ↔ n.value = 0 := by
  rw [← Int64.toInt_inj, toInt_toInt64]
  rfl

/-- A number that is reduced to a width is what the machine makes of its 64 bits. -/
theorem toInt64_bits (w : Width) (x : BitVec w.bits) :
    (ofBits w x).toInt64 = .ofBitVec (x.signExtend 64) := by
  apply Int64.toInt_inj.1
  rw [toInt_toInt64]
  have hle : w.bits ≤ 64 := by cases w <;> decide
  exact (BitVec.toInt_signExtend_of_le hle).symm

/-- The bits of a number that fits a width, with the sign repeated above them. -/
theorem signExtend_bits {w : Width} (h : w.Fits n.value) :
    (n.bits w).signExtend 64 = n.toInt64.toBitVec := by
  apply BitVec.eq_of_toInt_eq
  have hle : w.bits ≤ 64 := by cases w <;> decide
  rw [BitVec.toInt_signExtend_of_le hle, bits, BitVec.toInt_ofInt]
  exact (Width.wrap_of_fits h).trans n.toInt_toInt64.symm

theorem fits_join_left (a b : Number) : (a.width.join b.width).Fits a.value := by
  have ha := a.fits
  cases hw : a.width with
  | int =>
    rw [hw] at ha
    cases b.width with
    | int => exact ha
    | long => exact ha.widen
  | long => exact a.fits_widen

theorem fits_join_right (a b : Number) : (a.width.join b.width).Fits b.value := by
  have hb := b.fits
  cases hw : b.width with
  | int =>
    rw [hw] at hb
    cases a.width with
    | int => exact hb
    | long => exact hb.widen
  | long =>
    cases a.width <;> exact b.fits_widen

/-- A bitwise operation in a width is the operation on all bits. -/
theorem toInt64_bitwise {f : ∀ {k : Nat}, BitVec k → BitVec k → BitVec k}
    (hf : ∀ {k : Nat} (x y : BitVec k), (f x y).signExtend 64 = f (x.signExtend 64) (y.signExtend 64))
    {w : Width} (ha : w.Fits a.value) (hb : w.Fits b.value) :
    (ofBits w (f (a.bits w) (b.bits w))).toInt64 =
      .ofBitVec (f a.toInt64.toBitVec b.toInt64.toBitVec) := by
  rw [toInt64_bits, hf, signExtend_bits ha, signExtend_bits hb]

/-- The distance of a shift as the machine takes it. -/
theorem smod_shift (hlow : 0 ≤ b.value) (hhigh : b.value < 64) :
    b.toInt64.toBitVec.smod 64 = BitVec.ofNat 64 b.value.toNat := by
  apply BitVec.eq_of_toInt_eq
  have hb : b.toInt64.toBitVec.toInt = b.value := b.toInt_toInt64
  have hmod : b.value.fmod 64 = b.value := by
    rw [Int.fmod_eq_emod_of_nonneg _ (by decide)]
    exact Int.emod_eq_of_lt hlow hhigh
  have hnat : ((b.value.toNat : Nat) : Int) = b.value := Int.toNat_of_nonneg hlow
  have hwidth : (64 : BitVec 64).toInt = 64 := by decide
  have hdistance : (BitVec.ofNat 64 b.value.toNat).toInt = b.value := by
    have h : (BitVec.ofNat 64 b.value.toNat).toInt = ((b.value.toNat : Nat) : Int).bmod (2 ^ 64) :=
      BitVec.toInt_ofNat _
    rw [h, hnat]
    exact Int.bmod_eq_of_le (by omega) (by omega)
  rw [BitVec.toInt_smod, hb, hwidth, hmod, hdistance]

theorem toNat_shift {k : Nat} (h : k < 64) : (BitVec.ofNat 64 k).toNat = k := by
  rw [BitVec.toNat_ofNat]
  omega

/-- A shift to the left of a number that is not negative multiplies it. -/
theorem shiftLeft_toInt64 {w : Width} (ha : 0 ≤ a.value) (hlow : 0 ≤ b.value) (hhigh : b.value < 64)
    (h : of? w (a.value * 2 ^ b.value.toNat) = some c) : a.toInt64 <<< b.toInt64 = c.toInt64 := by
  apply Int64.toInt_inj.1
  have hlt : b.value.toNat < 64 := by omega
  have hnat : (a.toInt64.toBitVec.toNat : Int) = a.value := by
    have hfits := Width.fits_long.1 a.fits_widen
    show ((BitVec.ofInt 64 a.value).toNat : Int) = _
    rw [BitVec.toNat_ofInt]
    omega
  rw [toInt_toInt64, (eq_of_of? h).2]
  show (a.toInt64 <<< b.toInt64).toBitVec.toInt = _
  rw [Int64.toBitVec_shiftLeft, smod_shift hlow hhigh, BitVec.shiftLeft_eq', toNat_shift hlt,
    BitVec.toInt_shiftLeft, Nat.shiftLeft_eq]
  push_cast
  rw [hnat]
  have hfits := c.fits_widen
  rw [(eq_of_of? h).2] at hfits
  exact Width.wrap_of_fits hfits

/-- A shift to the right divides. -/
theorem shiftRight_toInt64 {w : Width} (hlow : 0 ≤ b.value) (hhigh : b.value < 64)
    (h : of? w (a.value / 2 ^ b.value.toNat) = some c) : a.toInt64 >>> b.toInt64 = c.toInt64 := by
  apply Int64.toInt_inj.1
  have hlt : b.value.toNat < 64 := by omega
  rw [toInt_toInt64, (eq_of_of? h).2]
  show (a.toInt64 >>> b.toInt64).toBitVec.toInt = _
  rw [Int64.toBitVec_shiftRight, smod_shift hlow hhigh, BitVec.sshiftRight', toNat_shift hlt,
    BitVec.toInt_sshiftRight, Int.shiftRight_eq_div_pow]
  push_cast
  rw [show a.toInt64.toBitVec.toInt = a.value from a.toInt_toInt64]

theorem bits_le (w : Width) : (w.bits : Int) ≤ 64 := by
  cases w <;> decide

/-- What an arithmetic operator makes of two numbers is what its instruction does. -/
theorem onInts_of_arithmetic? {op : ArithmeticOp} (h : arithmetic? op a b = some c) :
    op.instr.onInts a.toInt64 b.toInt64 = .ok c.toInt64 := by
  unfold arithmetic? at h
  have ha := Width.fits_long.1 a.fits_widen
  have hb := Width.fits_long.1 b.fits_widen
  cases op with
  | add =>
    rw [toInt64_of_of? h, Int64.ofInt_add]
    rfl
  | sub =>
    rw [toInt64_of_of? h, Int64.ofInt_sub]
    rfl
  | mul =>
    rw [toInt64_of_of? h, Int64.ofInt_mul]
    rfl
  | div =>
    dsimp only at h
    split at h
    · cases h
    · rename_i hzero
      have hne : b.toInt64 ≠ 0 := mt toInt64_eq_zero.1 hzero
      rw [toInt64_of_of? h, Int64.ofInt_tdiv ha.1 (Int.le_of_lt_add_one ha.2) hb.1
        (Int.le_of_lt_add_one hb.2)]
      exact if_neg hne
  | mod =>
    dsimp only at h
    split at h
    · cases h
    · rename_i hdefined
      have hne : b.toInt64 ≠ 0 := mt toInt64_eq_zero.1 fun hzero => hdefined (.inl hzero)
      rw [toInt64_of_of? h, Int64.ofInt_tmod ha.1 (Int.le_of_lt_add_one ha.2) hb.1
        (Int.le_of_lt_add_one hb.2)]
      exact if_neg hne
  | bitAnd =>
    cases h
    rw [toInt64_bitwise (f := (· &&& ·)) (fun _ _ => BitVec.signExtend_and) (fits_join_left a b)
      (fits_join_right a b)]
    rfl
  | bitOr =>
    cases h
    rw [toInt64_bitwise (f := (· ||| ·)) (fun _ _ => BitVec.signExtend_or) (fits_join_left a b)
      (fits_join_right a b)]
    rfl
  | bitXor =>
    cases h
    rw [toInt64_bitwise (f := (· ^^^ ·)) (fun _ _ => BitVec.signExtend_xor) (fits_join_left a b)
      (fits_join_right a b)]
    rfl
  | shiftLeft =>
    dsimp only at h
    split at h
    · rename_i hrange
      obtain ⟨ha, hlow, hhigh⟩ := hrange
      exact congrArg Except.ok
        (shiftLeft_toInt64 ha hlow (Int.lt_of_lt_of_le hhigh (bits_le a.width)) h)
    · cases h
  | shiftRight =>
    dsimp only at h
    split at h
    · rename_i hrange
      exact congrArg Except.ok
        (shiftRight_toInt64 hrange.1 (Int.lt_of_lt_of_le hrange.2 (bits_le a.width)) h)
    · cases h

/-- A comparison of two numbers is what its instructions do. -/
theorem onInts_compare (op : ComparisonOp) (a b : Number) :
    (op.instr.1.onInts a.toInt64 b.toInt64 != op.instr.2) = compare op a b := by
  have heq : (a.toInt64 == b.toInt64) = (a.value == b.value) := by
    rw [Bool.eq_iff_iff, beq_iff_eq, beq_iff_eq, ← Int64.toInt_inj, toInt_toInt64, toInt_toInt64]
  have hlt : ∀ m n : Number, decide (m.toInt64 < n.toInt64) = decide (m.value < n.value) := by
    intro m n
    rw [Bool.eq_iff_iff, decide_eq_true_iff, decide_eq_true_iff, Int64.lt_iff_toInt_lt, toInt_toInt64,
      toInt_toInt64]
  have hle : ∀ m n : Number, decide (m.value ≤ n.value) = !decide (n.value < m.value) := by
    intro m n
    rw [← decide_not, decide_eq_decide]
    omega
  cases op with
  | eq => exact (Bool.bne_false _).trans heq
  | ne =>
    show ((a.toInt64 == b.toInt64) != true) = _
    rw [heq, Bool.bne_true]
    rfl
  | lt => exact (Bool.bne_false _).trans (hlt a b)
  | gt => exact (Bool.bne_false _).trans (hlt b a)
  | le =>
    show (decide (b.toInt64 < a.toInt64) != true) = decide (a.value ≤ b.value)
    rw [hlt, Bool.bne_true, hle]
  | ge =>
    show (decide (a.toInt64 < b.toInt64) != true) = decide (b.value ≤ a.value)
    rw [hlt, Bool.bne_true, hle]

theorem neg_toInt64 (h : unary? .negate a = some b) : -a.toInt64 = b.toInt64 := by
  rw [toInt64_of_of? h, Int64.ofInt_neg, toInt64]

theorem not_toInt64 (h : unary? .bitNot a = some b) : ~~~a.toInt64 = b.toInt64 := by
  cases h
  have hpos : 0 < a.width.bits := by cases a.width <;> decide
  rw [toInt64_bits, BitVec.signExtend_not hpos, signExtend_bits a.fits]
  rfl

theorem isTrue_toValue (n : Number) : n.toValue.isTrue = n.isTrue := by
  show (n.toInt64 != 0) = (n.value != 0)
  rw [Bool.eq_iff_iff, bne_iff_ne, bne_iff_ne, ne_eq, ne_eq, toInt64_eq_zero]

/-- What the machine reduces to 32 bits is converted to `int`. -/
theorem narrow_int (n : Number) : TargetType.int32.narrow n.toInt64 = (n.convert .int).toInt64 := by
  show Int64.ofInt (n.toInt64.toInt.bmod (2 ^ 32)) = _
  rw [toInt_toInt64]
  rfl

/-- A number does not change when it is converted to a width that it fits. -/
theorem toInt64_convert {w : Width} (h : w.Fits n.value) : (n.convert w).toInt64 = n.toInt64 := by
  show Int64.ofInt (w.wrap n.value) = _
  rw [Width.wrap_of_fits h, toInt64]

theorem toValue_ofBool (b : Bool) : (ofBool b).toValue = .int (if b then 1 else 0) := by
  cases b <;> rfl

end Number

end ManagedC.Meaning
