import ManagedC.Proofs.Meaning.Arithmetic
import ManagedC.Proofs.Meaning.Conversions

/-!
# What words make of converted integers

The code of an operator works on words of 64 bits with a sign, whatever the types of its operands are. In
a signed type that is what the language says. In an unsigned type it is so up to the modulus of the type,
for the operators that respect it; and it is so exactly where the operands, and the result, are integers
that the words hold as they are. Main statement: `onWords_of_combined?`.
-/

namespace ManagedC.Meaning

/-- What the instructions of an operator make of two words. -/
def onWords? (op : BinaryOp) (a b : Int64) : Option Int64 :=
  match op with
  | .arithmetic op => (op.instr.onInts a b).toOption
  | .comparison op => some (if op.instr.1.onInts a b != op.instr.2 then 1 else 0)
  | .logical _ => none

/-- A word without a sign. -/
def IsPlain (v : Int) : Prop := 0 ≤ v ∧ v < 2 ^ 63

/-- An arithmetic operator in an unsigned format has operands with which words do as well. -/
def SuitsWords (op : ArithmeticOp) (k : IntegerFormat) (x y : Int) : Prop :=
  match op with
  | .add => k.bits = 64 ∨ k.Holds (x + y)
  | .sub => k.bits = 64 ∨ k.Holds (x - y)
  | .mul => k.bits = 64 ∨ k.Holds (x * y)
  | .shiftLeft => k.bits = 64 ∨ k.Holds (x * 2 ^ y.toNat)
  | .bitAnd => True
  | .bitOr | .bitXor => k.bits = 64 ∨ 0 ≤ x ∧ 0 ≤ y
  | .div | .mod => IsPlain x ∧ IsPlain y
  | .shiftRight => IsPlain x

/-- A comparison in an unsigned format has operands with which words do as well. -/
def SuitsComparison (op : ComparisonOp) (k : IntegerFormat) (x y : Int) : Prop :=
  match op with
  | .eq | .ne => k.bits = 64 ∨ 0 ≤ x ∧ 0 ≤ y
  | .lt | .gt | .le | .ge => IsPlain x ∧ IsPlain y

/-- Words do as well as integers of the formats: the operation is one of a signed format, or its operands
are such that this makes no difference. -/
def Suits (op : BinaryOp) (f g : IntegerFormat) (x y : Int) : Prop :=
  match op with
  | .arithmetic op => (f.common op g).signed = true ∨ SuitsWords op (f.common op g) x y
  | .comparison op => (f.join g).signed = true ∨ SuitsComparison op (f.join g) x y
  | .logical _ => False

/-- The operator respects the modulus of an unsigned format. -/
def RespectsModulus (op : ArithmeticOp) : Prop :=
  match op with
  | .add | .sub | .mul | .bitAnd | .bitOr | .bitXor | .shiftLeft => True
  | .div | .mod | .shiftRight => False

/-- A word against the result that the language prescribes. -/
structure Agrees (op : BinaryOp) (f g : IntegerFormat) (x y v : Int) (w : Int64) : Prop where
  /-- The word is the result. -/
  exact : Suits op f g x y → w = Int64.ofInt v
  /-- The word is the result up to the modulus. -/
  modular : ∀ op', op = .arithmetic op' → RespectsModulus op' → (f.common op' g).signed = false →
    (f.common op' g).reduce w.toInt = v

namespace IntegerFormat

variable {f g k : IntegerFormat} {v x y z : Int}

theorem bits_le (k : IntegerFormat) : k.bits ≤ 64 := by
  have := k.usual
  omega

/-- The modulus of a format divides that of words. -/
theorem modulus_dvd (k : IntegerFormat) : ((2 ^ k.bits : Nat) : Int) ∣ ((2 ^ 64 : Nat) : Int) :=
  Int.natCast_dvd_natCast.2 (Nat.pow_dvd_pow 2 k.bits_le)

theorem reduce_unsigned (hk : k.signed = false) (v : Int) :
    k.reduce v = v % ((2 ^ k.bits : Nat) : Int) := by
  have hpow : ((2 ^ k.bits : Nat) : Int) = 2 ^ k.bits := Int.natCast_pow 2 k.bits
  unfold reduce
  rw [hk, hpow]
  rfl

/-- What is left of an integer in a word has the same remainder. -/
theorem reduce_ofInt (hk : k.signed = false) (z : Int) :
    k.reduce (Int64.ofInt z).toInt = k.reduce z := by
  rw [reduce_unsigned hk, reduce_unsigned hk, Int64.toInt_ofInt,
    ← Int.emod_emod_of_dvd _ k.modulus_dvd, ← Int.emod_emod_of_dvd z k.modulus_dvd]
  congr 1
  exact Int.bmod_emod

/-- A word as the integer that its bits stand for without a sign. -/
theorem ofInt_toNat (w : Int64) : Int64.ofInt (w.toBitVec.toNat : Int) = w := by
  apply Int64.toInt_inj.1
  rw [Int64.toInt_ofInt]
  exact (BitVec.toInt_eq_toNat_bmod w.toBitVec).symm

/-- The lowest bits of a word are its remainder. -/
theorem reduce_toInt (hk : k.signed = false) (w : Int64) :
    k.reduce w.toInt = ((w.toBitVec.setWidth k.bits).toNat : Int) := by
  rw [← ofInt_toNat w, reduce_ofInt hk, reduce_unsigned hk, ofInt_toNat, BitVec.toNat_setWidth,
    Int.natCast_emod]

/-- A word with bits in an unsigned format only is not changed. -/
theorem ofInt_reduce_of_lt {w : Int64} (hk : k.signed = false) (h : w.toBitVec.toNat < 2 ^ k.bits) :
    Int64.ofInt (k.reduce w.toInt) = w := by
  rw [reduce_toInt hk, BitVec.toNat_setWidth, Nat.mod_eq_of_lt h, ofInt_toNat]

/-- Words hold the values of an unsigned format of their width. -/
theorem ofInt_reduce (hk : k.signed = false) (hbits : k.bits = 64) (z : Int) :
    Int64.ofInt (k.reduce z) = Int64.ofInt z := by
  apply Int64.toInt_inj.1
  rw [Int64.toInt_ofInt, Int64.toInt_ofInt, reduce_unsigned hk, hbits]
  exact Int.emod_bmod z (2 ^ 64)

theorem result?_eq_some : k.result? z = some v ↔
    (k.signed = true → k.Holds z) ∧ v = k.reduce z := by
  unfold result?
  by_cases h : k.signed = true ∧ ¬ k.Holds z
  · rw [if_pos h]
    exact ⟨nofun, fun hz => absurd (hz.1 h.1) h.2⟩
  · rw [if_neg h]
    have hz : k.signed = true → k.Holds z :=
      fun hs => Decidable.byContradiction fun hz => h ⟨hs, hz⟩
    exact ⟨fun hv => ⟨hz, (Option.some.inj hv).symm⟩, fun hv => congrArg some hv.2.symm⟩

/-- The promoted format has all values. -/
theorem Holds.promote (h : f.Holds v) : f.promote.Holds v := by
  refine h.above (below_promote f) ?_
  unfold IntegerFormat.promote
  split
  · exact .inl rfl
  · by_cases hs : f.signed = true
    · exact .inl hs
    · exact .inr ((holds_unsigned (Bool.eq_false_iff.2 hs)).1 h).1

/-- Only an unsigned integer makes a format unsigned. -/
theorem signed_of_join (h : (f.join g).signed = false) : f.signed = false ∨ g.signed = false := by
  have hpromote : ∀ {f : IntegerFormat}, f.promote.signed = false → f.signed = false := by
    intro f h
    unfold IntegerFormat.promote at h
    split at h
    · cases h
    · exact h
  unfold join at h
  repeat' split at h
  all_goals first
    | exact .inl (hpromote h)
    | exact .inr (hpromote h)

/-- Values of a signed format are words. -/
theorem Holds.word (h : k.Holds v) (hk : k.signed = true) : -2 ^ 63 ≤ v ∧ v < 2 ^ 63 := by
  have hlong := h.above (k := ⟨64, true, by decide⟩) ?_ (.inl rfl)
  · exact (holds_signed rfl).1 hlong
  · have := k.usual
    unfold Below
    dsimp only
    by_cases hbits : k.bits = 64
    · exact .inr ⟨hbits, fun _ => hk⟩
    · left
      omega

/-- What is reduced to a format has the same bits in it. -/
theorem ofInt_bits (k : IntegerFormat) (v : Int) :
    BitVec.ofInt k.bits (k.reduce v) = BitVec.ofInt k.bits v := by
  apply BitVec.eq_of_toInt_eq
  rw [BitVec.toInt_ofInt, BitVec.toInt_ofInt]
  unfold reduce
  split
  · exact Int.bmod_bmod
  · have := Int.emod_bmod v (2 ^ k.bits)
    rwa [Int.natCast_pow] at this

/-- The lowest bits of a word. -/
theorem setWidth_ofInt (k : IntegerFormat) (v : Int) :
    (BitVec.ofInt 64 v).setWidth k.bits = BitVec.ofInt k.bits v := by
  apply BitVec.eq_of_toNat_eq
  have hpos : ((2 ^ k.bits : Nat) : Int) ≠ 0 := by
    have := Nat.two_pow_pos k.bits
    omega
  rw [BitVec.toNat_setWidth, BitVec.toNat_ofInt, BitVec.toNat_ofInt, ← Int.natCast_inj,
    Int.natCast_emod, Int.toNat_of_nonneg (Int.emod_nonneg _ (by decide)),
    Int.toNat_of_nonneg (Int.emod_nonneg _ hpos)]
  exact Int.emod_emod_of_dvd v k.modulus_dvd

end IntegerFormat

/-! ## One operator after the other -/

namespace Agrees

open IntegerFormat

variable {op : ArithmeticOp} {f g : IntegerFormat} {x y v z : Int} {w : Int64}

/-- A word is an integer, and the language prescribes the same integer up to the modulus. -/
theorem of_integer (hz : (f.common op g).signed = true → (f.common op g).Holds z)
    (hv : v = (f.common op g).reduce z)
    (hsuits : SuitsWords op (f.common op g) x y →
      (f.common op g).bits = 64 ∨ (f.common op g).Holds z) :
    Agrees (.arithmetic op) f g x y v (Int64.ofInt z) := by
  have hheld : (f.common op g).Holds z → Int64.ofInt z = Int64.ofInt v := by
    intro h
    rw [hv, reduce_of_holds h]
  refine ⟨?_, ?_⟩
  · intro h
    cases hs : (f.common op g).signed with
    | true => exact hheld (hz hs)
    | false =>
      rcases h with hs' | h
      · rw [hs] at hs'
        cases hs'
      · rcases hsuits h with hbits | hh
        · rw [hv, ofInt_reduce hs hbits]
        · exact hheld hh
  · rintro _ ⟨⟩ - hs
    rw [reduce_ofInt hs, hv]

/-- Two integers that are converted before they are combined. -/
theorem of_converted {c : Int → Int → Int} (hop : f.common op g = f.join g)
    (hc : ∀ {k : IntegerFormat}, k.signed = false →
      k.reduce (c (k.reduce x) (k.reduce y)) = k.reduce (c x y))
    (hx : f.Holds x) (hy : g.Holds y)
    (h : (f.join g).result? (c ((f.join g).reduce x) ((f.join g).reduce y)) = some v)
    (hsuits : SuitsWords op (f.join g) x y → (f.join g).bits = 64 ∨ (f.join g).Holds (c x y)) :
    Agrees (.arithmetic op) f g x y v (Int64.ofInt (c x y)) := by
  obtain ⟨hheld, hv⟩ := result?_eq_some.1 h
  cases hs : (f.join g).signed with
  | true =>
    rw [reduce_of_holds (hx.above (below_join_left f g) (.inl hs)),
      reduce_of_holds (hy.above (below_join_right f g) (.inl hs))] at hheld hv
    exact of_integer (hop ▸ hheld) (hop ▸ hv) (hop ▸ hsuits)
  | false =>
    rw [hc hs] at hv
    refine of_integer (fun h => ?_) (hop ▸ hv) (hop ▸ hsuits)
    rw [hop, hs] at h
    cases h

/-- Two words combined bit by bit. -/
theorem of_bits {b : ∀ {n : Nat}, BitVec n → BitVec n → BitVec n}
    (hwidth : ∀ {m n : Nat} (p q : BitVec m),
      (b p q).setWidth n = b (p.setWidth n) (q.setWidth n))
    (hsign : ∀ {m n : Nat} (p q : BitVec m),
      (b p q).signExtend n = b (p.signExtend n) (q.signExtend n))
    (hop : f.common op g = f.join g) (hx : f.Holds x) (hy : g.Holds y)
    (hv : v = (f.join g).ofBits (b (.ofInt (f.join g).bits ((f.join g).reduce x))
      (.ofInt (f.join g).bits ((f.join g).reduce y))))
    (hsuits : (f.join g).signed = false → SuitsWords op (f.join g) x y →
      (f.join g).bits = 64 ∨ (b (.ofInt 64 x) (.ofInt 64 y)).toNat < 2 ^ 32) :
    Agrees (.arithmetic op) f g x y v (.ofBitVec (b (.ofInt 64 x) (.ofInt 64 y))) := by
  generalize hk : f.join g = k at *
  rw [ofInt_bits, ofInt_bits] at hv
  have hmodular : k.signed = false →
      k.reduce (Int64.ofBitVec (b (.ofInt 64 x) (.ofInt 64 y))).toInt = v := by
    intro hs
    rw [reduce_toInt hs, hv]
    show (((b (.ofInt 64 x) (.ofInt 64 y)).setWidth k.bits).toNat : Int) = _
    rw [hwidth, setWidth_ofInt, setWidth_ofInt, ofBits, hs]
    rfl
  refine ⟨?_, ?_⟩
  · intro h
    cases hs : k.signed with
    | true =>
      -- The words repeat the signs of narrower bits.
      have hsigned : ∀ {u : Int}, k.Holds u → (BitVec.ofInt k.bits u).signExtend 64 = .ofInt 64 u := by
        intro u hu
        have hword := hu.word hs
        have hself := reduce_of_holds hu
        unfold reduce at hself
        rw [if_pos hs] at hself
        apply BitVec.eq_of_toInt_eq
        rw [BitVec.toInt_signExtend_of_le k.bits_le, BitVec.toInt_ofInt, BitVec.toInt_ofInt, hself]
        exact (Int.bmod_eq_of_le (by omega) (by omega)).symm
      have hx := hx.above (hk ▸ below_join_left f g) (.inl hs)
      have hy := hy.above (hk ▸ below_join_right f g) (.inl hs)
      rw [hv, ofBits, if_pos hs, ← hsigned hx, ← hsigned hy, ← hsign]
      rfl
    | false =>
      have hmod := hmodular hs
      rcases h with hs' | h
      · rw [hop, hs] at hs'
        cases hs'
      · rcases hsuits hs (hop ▸ h) with hbits | hlt
        · rw [← hmod, ofInt_reduce hs hbits, Int64.ofInt_toInt]
        · have hle : 2 ^ 32 ≤ 2 ^ k.bits := by
            refine Nat.pow_le_pow_right (by decide) ?_
            rcases hk ▸ bits_join f g with hbits | hbits <;> omega
          rw [← hmod]
          exact (ofInt_reduce_of_lt hs (Nat.lt_of_lt_of_le hlt hle)).symm
  · rintro _ ⟨⟩ - hs
    rw [hop] at hs ⊢
    exact hmodular hs

end Agrees

section

open IntegerFormat

variable {op : ArithmeticOp} {f g k : IntegerFormat} {x y v z : Int}

/-- Operands of a division are divided as they are. -/
theorem converted_of_suits (hx : f.Holds x) (hfk : f.Below k)
    (h : k.signed = true ∨ IsPlain x) : k.Holds x ∧ -2 ^ 63 ≤ x ∧ x < 2 ^ 63 := by
  rcases h with hs | h
  · have hheld := hx.above hfk (.inl hs)
    exact ⟨hheld, hheld.word hs⟩
  · refine ⟨hx.above hfk (.inr h.1), ?_, h.2⟩
    have := h.1
    omega

/-- A divisor that is not zero in the format is no zero word. -/
theorem ofInt_ne_zero (h : k.reduce y ≠ 0) : Int64.ofInt y ≠ 0 := by
  intro hzero
  apply h
  have hy : ((2 ^ 64 : Nat) : Int) ∣ y := by
    have := congrArg Int64.toInt hzero
    rw [Int64.toInt_ofInt] at this
    exact Int.dvd_of_bmod_eq_zero this
  have hdvd := Int.dvd_trans k.modulus_dvd hy
  unfold reduce
  split
  · exact Int.bmod_eq_zero_of_dvd hdvd
  · rw [Int.natCast_pow] at hdvd
    exact Int.emod_eq_zero_of_dvd hdvd

/-- The word of a product with a power of two. -/
theorem shiftLeft_ofInt (hlow : 0 ≤ y) (hhigh : y < 64) :
    Int64.ofInt x <<< Int64.ofInt y = Int64.ofInt (x * 2 ^ y.toNat) := by
  let b : Number := ⟨.int, y, by rw [Width.fits_int]; omega⟩
  apply Int64.toInt_inj.1
  have hdistance : (Int64.ofInt y).toBitVec.smod 64 = BitVec.ofNat 64 y.toNat :=
    @Number.smod_shift b hlow hhigh
  have hpow : ((2 ^ y.toNat : Nat) : Int) = 2 ^ y.toNat := Int.natCast_pow 2 y.toNat
  show (Int64.ofInt x <<< Int64.ofInt y).toBitVec.toInt = _
  rw [Int64.toBitVec_shiftLeft, hdistance, BitVec.shiftLeft_eq', Number.toNat_shift (by omega),
    BitVec.toInt_shiftLeft, Nat.shiftLeft_eq, Int64.toInt_ofInt, Int.natCast_mul, hpow]
  show (((BitVec.ofInt 64 x).toNat : Int) * _).bmod _ = _
  rw [BitVec.toNat_ofInt, Int.toNat_of_nonneg (Int.emod_nonneg _ (by decide))]
  exact Int.emod_mul_bmod x (2 ^ 64)

/-- The word of a quotient by a power of two. -/
theorem shiftRight_ofInt (hword : -2 ^ 63 ≤ x ∧ x < 2 ^ 63) (hlow : 0 ≤ y) (hhigh : y < 64) :
    Int64.ofInt x >>> Int64.ofInt y = Int64.ofInt (x / 2 ^ y.toNat) := by
  let a : Number := ⟨.long, x, Width.fits_long.2 (by omega)⟩
  let b : Number := ⟨.int, y, by rw [Width.fits_int]; omega⟩
  have hpos : (0 : Int) < 2 ^ y.toNat := Int.pow_pos (by decide)
  have hfits : Width.long.Fits (x / 2 ^ y.toNat) := by
    rw [Width.fits_long]
    by_cases hx : 0 ≤ x
    · have := Int.ediv_le_self (2 ^ y.toNat) hx
      have := Int.ediv_nonneg hx (Int.le_of_lt hpos)
      omega
    · have := Int.ediv_neg_of_neg_of_pos (Int.not_le.1 hx) hpos
      have hmul : x * 2 ^ y.toNat ≤ x * 1 :=
        Int.mul_le_mul_of_nonpos_left (Int.le_of_not_le hx) hpos
      have := Int.le_ediv_of_mul_le hpos (Int.mul_one x ▸ hmul)
      omega
  exact @Number.shiftRight_toInt64 a b ⟨.long, _, hfits⟩ .long hlow hhigh (dif_pos hfits)

/-- A value that is not negative, of a format below one of 32 bits. -/
theorem lt_of_below (hx : f.Holds x) (hfk : f.Below k) (hbits : k.bits = 32) (h : 0 ≤ x) :
    x < 2 ^ 32 := by
  have hbelow : f.Below ⟨32, false, by decide⟩ := by
    rcases hfk with hlt | ⟨heq, -⟩
    · left
      show f.bits < 32
      omega
    · exact .inr ⟨heq.trans hbits, nofun⟩
  exact ((holds_unsigned rfl).1 (hx.above hbelow (.inr h))).2

theorem toNat_ofInt_lt (hx : f.Holds x) (hfk : f.Below k) (hbits : k.bits = 32) (h : 0 ≤ x) :
    (BitVec.ofInt 64 x).toNat < 2 ^ 32 := by
  have hlt := lt_of_below hx hfk hbits h
  have hmod : x % ((2 ^ 64 : Nat) : Int) = x := Int.emod_eq_of_lt h (by omega)
  rw [BitVec.toNat_ofInt, hmod]
  omega

theorem holds_tdiv (hx : k.Holds x) (h : IsPlain x ∧ IsPlain y) : k.Holds (x.tdiv y) := by
  have hlow := Int.tdiv_nonneg h.1.1 h.2.1
  have hhigh := Int.tdiv_le_self y h.1.1
  refine ⟨Int.le_trans ?_ hlow, Int.lt_of_le_of_lt hhigh hx.2⟩
  unfold least
  split
  · exact Int.neg_nonpos_of_nonneg (Int.pow_nonneg (by decide))
  · exact Int.le_refl 0

/-- What the instruction of an arithmetic operator makes of words agrees with the language. -/
theorem onInts_agrees (hx : f.Holds x) (hy : g.Holds y)
    (h : combined? (.arithmetic op) f g x y = some v) :
    ∃ w, op.instr.onInts (.ofInt x) (.ofInt y) = .ok w ∧ Agrees (.arithmetic op) f g x y v w := by
  have hleft := below_join_left f g
  have hright := below_join_right f g
  cases op with
  | add =>
    refine ⟨_, congrArg Except.ok (Int64.ofInt_add x y).symm, ?_⟩
    exact .of_converted rfl (fun hs => by simp [reduce_unsigned hs]) hx hy h id
  | sub =>
    refine ⟨_, congrArg Except.ok (Int64.ofInt_sub x y).symm, ?_⟩
    exact .of_converted rfl (fun hs => by simp [reduce_unsigned hs]) hx hy h id
  | mul =>
    refine ⟨_, congrArg Except.ok (Int64.ofInt_mul x y).symm, ?_⟩
    refine .of_converted rfl (fun hs => ?_) hx hy h id
    rw [reduce_unsigned hs, reduce_unsigned hs, reduce_unsigned hs, reduce_unsigned hs]
    exact (Int.mul_emod x y _).symm
  | div =>
    obtain ⟨hzero, h⟩ := Option.ite_none_left_eq_some.1 h
    refine ⟨_, if_neg (ofInt_ne_zero hzero), fun hsuits => ?_, nofun⟩
    obtain ⟨hkx, hwordx⟩ := converted_of_suits hx hleft (hsuits.imp_right And.left)
    obtain ⟨hky, hwordy⟩ := converted_of_suits hy hright (hsuits.imp_right And.right)
    simp only [common, rightOperand, reduce_of_holds hkx, reduce_of_holds hky] at h
    obtain ⟨hheld, hv⟩ := result?_eq_some.1 h
    have hheld : (f.join g).Holds (x.tdiv y) := by
      rcases hsuits with hs | hsuits
      · exact hheld hs
      · exact holds_tdiv hkx hsuits
    rw [hv, reduce_of_holds hheld, Int64.ofInt_tdiv hwordx.1 (Int.le_of_lt_add_one hwordx.2) hwordy.1
      (Int.le_of_lt_add_one hwordy.2)]
  | mod =>
    obtain ⟨hzero, h⟩ := Option.ite_none_left_eq_some.1 h
    refine ⟨_, if_neg (ofInt_ne_zero fun h => hzero (.inl h)), fun hsuits => ?_, nofun⟩
    obtain ⟨hkx, hwordx⟩ := converted_of_suits hx hleft (hsuits.imp_right And.left)
    obtain ⟨hky, hwordy⟩ := converted_of_suits hy hright (hsuits.imp_right And.right)
    simp only [common, rightOperand, reduce_of_holds hkx, reduce_of_holds hky] at h
    rw [← Option.some.inj h, Int64.ofInt_tmod hwordx.1 (Int.le_of_lt_add_one hwordx.2) hwordy.1
      (Int.le_of_lt_add_one hwordy.2)]
  | bitAnd =>
    refine ⟨_, rfl, .of_bits (b := (· &&& ·)) (fun _ _ => BitVec.setWidth_and)
      (fun _ _ => BitVec.signExtend_and) rfl hx hy (Option.some.inj h).symm fun hs _ => ?_⟩
    rcases bits_join f g with hbits | hbits
    · right
      rw [BitVec.toNat_and]
      -- One of the two operands has no sign, and the bits above the format are those of both.
      rcases signed_of_join hs with hf | hg
      · rw [Nat.and_comm]
        exact Nat.and_lt_two_pow _ (toNat_ofInt_lt hx hleft hbits ((holds_unsigned hf).1 hx).1)
      · exact Nat.and_lt_two_pow _ (toNat_ofInt_lt hy hright hbits ((holds_unsigned hg).1 hy).1)
    · exact .inl hbits
  | bitOr =>
    refine ⟨_, rfl, .of_bits (b := (· ||| ·)) (fun _ _ => BitVec.setWidth_or)
      (fun _ _ => BitVec.signExtend_or) rfl hx hy (Option.some.inj h).symm fun _ hsuits => ?_⟩
    rcases bits_join f g with hbits | hbits
    · rcases hsuits with hbits' | ⟨hx0, hy0⟩
      · exact .inl hbits'
      · right
        rw [BitVec.toNat_or]
        exact Nat.or_lt_two_pow (toNat_ofInt_lt hx hleft hbits hx0) (toNat_ofInt_lt hy hright hbits hy0)
    · exact .inl hbits
  | bitXor =>
    refine ⟨_, rfl, .of_bits (b := (· ^^^ ·)) (fun _ _ => BitVec.setWidth_xor)
      (fun _ _ => BitVec.signExtend_xor) rfl hx hy (Option.some.inj h).symm fun _ hsuits => ?_⟩
    rcases bits_join f g with hbits | hbits
    · rcases hsuits with hbits' | ⟨hx0, hy0⟩
      · exact .inl hbits'
      · right
        rw [BitVec.toNat_xor]
        exact Nat.xor_lt_two_pow (toNat_ofInt_lt hx hleft hbits hx0) (toNat_ofInt_lt hy hright hbits hy0)
    · exact .inl hbits
  | shiftLeft =>
    obtain ⟨⟨hlow, hhigh, -⟩, h⟩ := Option.ite_none_right_eq_some.1 h
    have hhigh : y < 64 := by
      have := f.promote.bits_le
      have : y < f.promote.bits := hhigh
      omega
    refine ⟨_, congrArg Except.ok (shiftLeft_ofInt hlow hhigh), ?_⟩
    obtain ⟨hheld, hv⟩ := result?_eq_some.1 h
    have hself : f.promote.reduce x = x := reduce_of_holds hx.promote
    simp only [common, rightOperand, hself] at hheld hv
    exact .of_integer hheld hv id
  | shiftRight =>
    obtain ⟨⟨hlow, hhigh⟩, h⟩ := Option.ite_none_right_eq_some.1 h
    have hlow : 0 ≤ y := hlow
    have hhigh : y < 64 := by
      have := f.promote.bits_le
      have : y < f.promote.bits := hhigh
      omega
    refine ⟨_, rfl, fun hsuits => ?_, nofun⟩
    have hself : f.promote.reduce x = x := reduce_of_holds hx.promote
    simp only [common, rightOperand, hself] at h
    obtain ⟨-, hword⟩ := converted_of_suits hx (below_promote f) hsuits
    rw [shiftRight_ofInt hword hlow hhigh, Option.some.inj h]

/-! ## Comparisons -/

/-- A comparison of words is one of the numbers that they hold as they are. -/
theorem onInts_of_words {op : ComparisonOp} (hx : -2 ^ 63 ≤ x ∧ x < 2 ^ 63)
    (hy : -2 ^ 63 ≤ y ∧ y < 2 ^ 63) :
    (op.instr.1.onInts (.ofInt x) (.ofInt y) != op.instr.2) = holds op x y := by
  let a : Number := ⟨.long, x, Width.fits_long.2 (by omega)⟩
  let b : Number := ⟨.long, y, Width.fits_long.2 (by omega)⟩
  have h : (op.instr.1.onInts a.toInt64 b.toInt64 != op.instr.2) = Number.compare op a b :=
    Number.onInts_compare op a b
  cases op <;> exact h

/-- Two words are equal exactly if the values of 64 bits without a sign are. -/
theorem ofInt_beq (hk : k.signed = false) (hbits : k.bits = 64) :
    (Int64.ofInt x == Int64.ofInt y) = (k.reduce x == k.reduce y) := by
  rw [Bool.eq_iff_iff, beq_iff_eq, beq_iff_eq]
  constructor
  · intro h
    rw [← reduce_ofInt hk, h, reduce_ofInt hk]
  · intro h
    rw [← ofInt_reduce hk hbits, h, ofInt_reduce hk hbits]

/-- What the instructions of a comparison make of words is what the language says, where they suit. -/
theorem holds_of_suits {op : ComparisonOp} (hx : f.Holds x) (hy : g.Holds y)
    (h : Suits (.comparison op) f g x y) :
    (op.instr.1.onInts (.ofInt x) (.ofInt y) != op.instr.2) =
      holds op ((f.join g).reduce x) ((f.join g).reduce y) := by
  have hwords : (f.join g).signed = true ∨ IsPlain x ∧ IsPlain y →
      (op.instr.1.onInts (.ofInt x) (.ofInt y) != op.instr.2) =
        holds op ((f.join g).reduce x) ((f.join g).reduce y) := by
    intro h
    obtain ⟨hkx, hwordx⟩ := converted_of_suits hx (below_join_left f g) (h.imp_right And.left)
    obtain ⟨hky, hwordy⟩ := converted_of_suits hy (below_join_right f g) (h.imp_right And.right)
    rw [reduce_of_holds hkx, reduce_of_holds hky, onInts_of_words hwordx hwordy]
  have hequality : (f.join g).signed = true ∨ (f.join g).bits = 64 ∨ 0 ≤ x ∧ 0 ≤ y →
      op = .eq ∨ op = .ne → (op.instr.1.onInts (.ofInt x) (.ofInt y) != op.instr.2) =
        holds op ((f.join g).reduce x) ((f.join g).reduce y) := by
    intro h hop
    cases hs : (f.join g).signed with
    | true => exact hwords (.inl hs)
    | false =>
      rcases bits_join f g with hbits | hbits
      · rcases h with h | h | ⟨hx0, hy0⟩
        · rw [hs] at h
          cases h
        · omega
        · have hx32 := lt_of_below hx (below_join_left f g) hbits hx0
          have hy32 := lt_of_below hy (below_join_right f g) hbits hy0
          exact hwords (.inr ⟨⟨hx0, by omega⟩, ⟨hy0, by omega⟩⟩)
      · have hbeq := @ofInt_beq _ x y hs hbits
        rcases hop with rfl | rfl
        · exact (Bool.bne_false _).trans hbeq
        · show ((Int64.ofInt x == Int64.ofInt y) != true) = _
          rw [hbeq, Bool.bne_true]
          rfl
  cases op with
  | eq => exact hequality h (.inl rfl)
  | ne => exact hequality h (.inr rfl)
  | lt | gt | le | ge => exact hwords h

end

/-- What the instructions of an operator make of the words of two values agrees with what the language
makes of the values. -/
theorem onWords_of_combined? {op : BinaryOp} {f g : IntegerFormat} {x y v : Int} (hx : f.Holds x)
    (hy : g.Holds y) (h : combined? op f g x y = some v) :
    ∃ w, onWords? op (.ofInt x) (.ofInt y) = some w ∧ Agrees op f g x y v w := by
  cases op with
  | arithmetic op =>
    obtain ⟨w, hw, hagrees⟩ := onInts_agrees hx hy h
    exact ⟨w, congrArg Except.toOption hw, hagrees⟩
  | comparison op =>
    refine ⟨_, rfl, fun hsuits => ?_, nofun⟩
    rw [holds_of_suits hx hy hsuits, ← Option.some.inj h]
    split <;> rfl
  | logical op => cases h

end ManagedC.Meaning
