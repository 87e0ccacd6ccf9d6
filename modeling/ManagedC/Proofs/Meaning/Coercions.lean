import ManagedC.Proofs.Emit.Calls
import ManagedC.Proofs.Meaning.Operators
import ManagedC.Proofs.Run.Leads
import ManagedC.Syntax.Construct

/-!
# Conversions between integer types

The code of a conversion from one integer type to another keeps the lowest 32 bits of an integer of 64
bits, and otherwise leaves an integer as it is. It is always right up to the modulus of the type, and it
is right where the type has the integer that is left. Nothing happens to an argument or to a returned
value after its conversion, but stores cut it down: once calls pass integers of the types of the
parameters, parameters have such integers as long as the program runs. Main statements: `Emit.coerce_leaves`,
`Run.PassesAdmitted.keeps` and, for compiled programs, `TranslationUnit.compile_converts`.
-/

namespace ManagedC

open Yields Meaning

/-! ## What conversions come to -/

namespace Meaning.IntegerFormat

variable {f g : IntegerFormat} {v w : Int}

/-- A reduced integer is one of the format. -/
theorem holds_reduce (f : IntegerFormat) (v : Int) : f.Holds (f.reduce v) := by
  obtain ⟨b, s, hb⟩ := f
  unfold Holds least bound reduce
  cases s with
  | false =>
    simp only [Bool.false_eq_true, if_false]
    have hpos : (0 : Int) < 2 ^ b := Int.pow_pos (by decide)
    exact ⟨Int.emod_nonneg _ (Int.ne_of_gt hpos), Int.emod_lt_of_pos _ hpos⟩
  | true =>
    simp only [if_true]
    have hlow := Int.le_bmod (x := v) (m := 2 ^ b) (Nat.two_pow_pos b)
    have hhigh := Int.bmod_lt (x := v) (m := 2 ^ b) (Nat.two_pow_pos b)
    rcases hb with rfl | rfl | rfl | rfl <;> omega

/-- A reduced integer is the same up to the modulus. -/
theorem dvd_reduce_sub (f : IntegerFormat) (v : Int) : (2 ^ f.bits : Int) ∣ f.reduce v - v := by
  unfold reduce
  split
  · have hdvd : ((2 ^ f.bits : Nat) : Int) ∣ v.bmod (2 ^ f.bits) - v := Int.dvd_bmod_sub_self
    rwa [Int.natCast_pow] at hdvd
  · exact Int.dvd_emod_sub_self

/-- Integers that are the same up to the modulus are reduced to one. -/
theorem reduce_congr (h : (2 ^ f.bits : Int) ∣ v - w) : f.reduce v = f.reduce w := by
  unfold reduce
  split
  · refine Int.bmod_eq_bmod_iff_bmod_sub_eq_zero.2 (Int.bmod_eq_zero_of_dvd ?_)
    rwa [Int.natCast_pow]
  · exact Int.emod_eq_emod_iff_emod_sub_eq_zero.2 (Int.emod_eq_zero_of_dvd h)

/-- What the language makes of an integer in a format. -/
def IsConversion (g : IntegerFormat) (v w : Int) : Prop := g.Holds w ∧ (2 ^ g.bits : Int) ∣ w - v

instance (g : IntegerFormat) (v w : Int) : Decidable (g.IsConversion v w) :=
  inferInstanceAs (Decidable (_ ∧ _))

theorem isConversion_iff : g.IsConversion v w ↔ w = g.reduce v := by
  constructor
  · rintro ⟨hw, hdvd⟩
    rw [← reduce_congr hdvd, reduce_of_holds hw]
  · rintro rfl
    exact ⟨holds_reduce g v, dvd_reduce_sub g v⟩

/-- What a conversion between two formats leaves: of 64 bits the lowest 32, if the other format is
narrower. -/
def coerced (f g : IntegerFormat) (v : Int) : Int :=
  if f.bits = 64 ∧ g.bits ≠ 64 then v.bmod (2 ^ 32) else v

/-- What is left is the same up to the modulus. -/
theorem reduce_coerced (f g : IntegerFormat) (v : Int) : g.reduce (f.coerced g v) = g.reduce v := by
  unfold coerced
  split
  · rename_i hbits
    have hle : g.bits ≤ 32 := by
      have := g.usual
      omega
    have hdvd : ((2 ^ 32 : Nat) : Int) ∣ v.bmod (2 ^ 32) - v := Int.dvd_bmod_sub_self
    exact reduce_congr (Int.dvd_trans (by exact_mod_cast Nat.pow_dvd_pow 2 hle) hdvd)
  · rfl

/-- Values of a narrow format are words. -/
theorem Holds.narrow (h : f.Holds v) (hf : f.bits ≠ 64) : -2 ^ 63 ≤ v ∧ v < 2 ^ 63 := by
  have hbelow : f.Below ⟨64, true, by decide⟩ := by
    have := f.usual
    left
    show f.bits < 64
    omega
  exact (h.above hbelow (.inl rfl)).word rfl

/-- What is left is a word, unless both formats have 64 bits. -/
theorem word_coerced (h : f.Holds v) (hg : g.bits ≠ 64) :
    -2 ^ 63 ≤ f.coerced g v ∧ f.coerced g v < 2 ^ 63 := by
  unfold coerced
  by_cases hbits : f.bits = 64
  · rw [if_pos ⟨hbits, hg⟩]
    have hlow := Int.le_bmod (x := v) (m := 2 ^ 32) (by decide)
    have hhigh := Int.bmod_lt (x := v) (m := 2 ^ 32) (by decide)
    omega
  · rw [if_neg fun h => hbits h.1]
    exact h.narrow hbits

/-- The machine has one word for integers that are the same up to the modulus of words. -/
theorem ofInt_congr (h : (2 ^ 64 : Int) ∣ v - w) : Int64.ofInt v = Int64.ofInt w := by
  apply Int64.toInt_inj.1
  rw [Int64.toInt_ofInt, Int64.toInt_ofInt]
  exact Int.bmod_eq_bmod_iff_bmod_sub_eq_zero.2 (Int.bmod_eq_zero_of_dvd h)

/-- A word is the same as the integer up to the modulus. -/
theorem reduce_word (g : IntegerFormat) (v : Int) : g.reduce (Int64.ofInt v).toInt = g.reduce v := by
  have hdvd : ((2 ^ 64 : Nat) : Int) ∣ v.bmod (2 ^ 64) - v := Int.dvd_bmod_sub_self
  rw [Int64.toInt_ofInt]
  exact reduce_congr (Int.dvd_trans (Int.natCast_pow 2 g.bits ▸ g.modulus_dvd) hdvd)

/-- The machine has words of their own for integers that are words. -/
theorem ofInt_inj (hv : -2 ^ 63 ≤ v ∧ v < 2 ^ 63) (hw : -2 ^ 63 ≤ w ∧ w < 2 ^ 63) :
    Int64.ofInt v = Int64.ofInt w ↔ v = w := by
  refine ⟨fun h => ?_, fun h => by rw [h]⟩
  have h := congrArg Int64.toInt h
  rwa [Int64.toInt_ofInt_of_le (by omega) (by omega),
    Int64.toInt_ofInt_of_le (by omega) (by omega)] at h

/-- The word that a conversion leaves is the right one exactly if the format has 64 bits or has what is
left. -/
theorem ofInt_coerced_iff (h : f.Holds v) :
    Int64.ofInt (f.coerced g v) = Int64.ofInt (g.reduce v) ↔
      g.bits = 64 ∨ g.Holds (f.coerced g v) := by
  by_cases hbits : g.bits = 64
  · refine iff_of_true ?_ (.inl hbits)
    have hself : f.coerced g v = v := if_neg fun h => h.2 hbits
    have hdvd := dvd_reduce_sub g v
    rw [hbits] at hdvd
    rw [hself]
    exact (ofInt_congr hdvd).symm
  · rw [ofInt_inj (word_coerced h hbits) ((holds_reduce g v).narrow hbits)]
    constructor
    · intro heq
      rw [heq]
      exact .inr (holds_reduce g v)
    · rintro (h64 | hholds)
      · exact absurd h64 hbits
      · rw [← reduce_coerced f g v, reduce_of_holds hholds]

end Meaning.IntegerFormat

/-! ## The code of a conversion -/

namespace CType

variable {type : CType} {f : IntegerFormat}

/-- The types that the compiler takes for long ones are those of 64 bits. -/
theorem isLong_iff (h : IntegerFormat.of? type = some f) : type.isLong = true ↔ f.bits = 64 := by
  unfold IntegerFormat.of? at h
  split at h <;> cases h <;> decide

/-- What variables of an integer type do with a stored integer: it is reduced to the format. -/
theorem narrow_eq_reduce {t : TargetType} (h : IntegerFormat.of? type = some f)
    (ht : type.target = .ok t) (n : Int64) : t.narrow n = Int64.ofInt (f.reduce n.toInt) := by
  have hlong : f.bits = 64 → Int64.ofInt (f.reduce n.toInt) = n := by
    intro hbits
    have hdvd := f.dvd_reduce_sub n.toInt
    rw [hbits] at hdvd
    rw [IntegerFormat.ofInt_congr hdvd, Int64.ofInt_toInt]
  unfold IntegerFormat.of? at h
  split at h <;> cases h <;> cases ht <;> first | rfl | exact (hlong rfl).symm

end CType

namespace Emit

variable {source target : CType} {f g : IntegerFormat}

/-- Every conversion between integer types has code. -/
theorem yields_coerce_of_integers (hf : IntegerFormat.of? source = some f)
    (hg : IntegerFormat.of? target = some g) (s : Scope) (location : Location) :
    Yields (coerce source target location) s () (s.append [] (coercion source target)) := by
  have hs := CType.isInteger_of_format hf
  have ht := CType.isInteger_of_format hg
  have hexists : ∃ t, Yields (coerce source target location) s () t := by
    by_cases heq : source = target
    · unfold coerce
      rw [if_pos heq]
      exact ⟨_, rfl⟩
    · cases source with
      | primitive source =>
        cases target with
        | primitive target =>
          unfold coerce
          rw [if_neg heq]
          dsimp only
          rw [hs, ht]
          cases CType.isLong (.primitive target) <;> cases CType.isLong (.primitive source) <;>
            exact ⟨_, rfl⟩
        | _ => cases ht
      | _ => cases hs
  obtain ⟨t, ht⟩ := hexists
  rwa [(yields_coerce ht).1] at ht

end Emit

/-- The conversion to 32 bits keeps the lowest ones. -/
theorem TargetType.narrow_int32_ofInt (x : Int) :
    TargetType.narrow .int32 (.ofInt x) = .ofInt (x.bmod (2 ^ 32)) := by
  show Int64.ofInt ((Int64.ofInt x).toInt.bmod (2 ^ 32)) = _
  rw [Int64.toInt_ofInt]
  exact congrArg Int64.ofInt (Int.bmod_bmod_of_dvd (by decide))

/-- What the code of a conversion does to the word of an integer. -/
theorem Activation.follows_integerCoercion {source target : CType} {f g : IntegerFormat} {a : Activation}
    {x : Int} {rest : List Value} (hf : IntegerFormat.of? source = some f)
    (hg : IntegerFormat.of? target = some g) (hstack : a.stack = .int (.ofInt x) :: rest) (s : Store) :
    a.Follows s (coercion source target) { a with
      stack := .int (.ofInt (f.coerced g x)) :: rest
      pc := a.pc + (coercion source target).length } := by
  obtain ⟨method, regions, arguments, locals, stack, pc, pending⟩ := a
  obtain rfl : stack = _ := hstack
  have hpointer := CType.isPointer_of_isInteger (CType.isInteger_of_format hg)
  have hsource := CType.isLong_iff hf
  have htarget := CType.isLong_iff hg
  unfold coercion IntegerFormat.coerced
  rw [hpointer, Bool.and_false, Bool.or_false, if_neg (c := false = true) nofun]
  by_cases heq : source = target
  · subst heq
    obtain rfl : f = g := Option.some.inj (hf.symm.trans hg)
    rw [if_pos (decide_eq_true rfl), if_neg fun h => h.2 h.1]
    exact .nil
  rw [if_neg (by rwa [decide_eq_true_iff])]
  cases hs : source.isLong with
  | false =>
    rw [if_neg (c := f.bits = 64 ∧ _) fun h => by simp [hsource.2 h.1] at hs, Bool.and_false]
    cases target.isLong with
    | false => exact .nil
    | true => exact .cons rfl (.onTop rfl rfl rfl) rfl .nil
  | true =>
    have hfbits := hsource.1 hs
    cases ht : target.isLong with
    | false =>
      have hgbits : g.bits ≠ 64 := fun h => by simp [htarget.2 h] at ht
      rw [if_pos (c := f.bits = 64 ∧ _) ⟨hfbits, hgbits⟩, ← TargetType.narrow_int32_ofInt]
      exact .cons rfl (.onTop rfl rfl rfl) rfl .nil
    | true =>
      rw [if_neg (c := f.bits = 64 ∧ g.bits ≠ 64) fun h => h.2 (htarget.1 ht)]
      exact .nil

/-- The code of a conversion between two integer types leaves one word, wherever it is run. -/
theorem Emit.coerce_leaves {source target : CType} {f g : IntegerFormat}
    (hf : IntegerFormat.of? source = some f) (hg : IntegerFormat.of? target = some g) (s : Scope)
    (location : Location) :
    Yields (coerce source target location) s () (s.append [] (coercion source target)) ∧
      ∀ (program : Module) (a : Activation) (x : Int) (rest : List Value),
        (s.append [] (coercion source target)).assembler.method.Extends a.method → a.pc = s.offset →
        a.stack = .int (.ofInt x) :: rest →
        a.Reaches program { a with
          stack := .int (.ofInt (f.coerced g x)) :: rest
          pc := (s.append [] (coercion source target)).offset } := by
  refine ⟨yields_coerce_of_integers hf hg s location, fun program a x rest hM hpc hstack => ?_⟩
  rw [Scope.offset_append, ← hpc]
  exact .follows (hpc.symm ▸ Scope.hasCode_append hM)
    fun store => Activation.follows_integerCoercion hf hg hstack store

/-- A conversion of 300 to `char` leaves 300, which is 44 in that type. -/
theorem Emit.coerce_overflows :
    (⟨32, true, by decide⟩ : IntegerFormat).Holds 300 ∧
      (⟨8, false, by decide⟩ : IntegerFormat).IsConversion 300 44 ∧
      IntegerFormat.of? .int = some ⟨32, true, by decide⟩ ∧
      IntegerFormat.of? (.primitive .char) = some ⟨8, false, by decide⟩ ∧
      ∃ t, Yields (coerce .int (.primitive .char) default) scope () t ∧
        ∀ (program : Module) (a b : Activation), t.assembler.method.Extends a.method →
          a.pc = scope.offset → a.stack = [.int 300] → b = { a with pc := t.offset } →
          a.Reaches program b ∧ b.stack = [.int 300] := by
  refine ⟨by decide, by decide, rfl, rfl, scope, rfl, ?_⟩
  rintro program ⟨method, regions, arguments, locals, stack, pc, pending⟩ b - rfl rfl rfl
  exact ⟨.refl _, rfl⟩

/-! ## Arguments -/

/-- A type has the integer that a value is, if that is an integer and the type is an integer type. -/
def CType.Admits (type : CType) (v : Value) : Prop :=
  ∀ f n, IntegerFormat.of? type = some f → v = .int n → ∃ x, f.Holds x ∧ n = .ofInt x

/-- Variables have integers of their types. -/
theorem CType.admits_narrow {type : CType} {t : TargetType} (ht : type.target = .ok t) (v : Value) :
    type.Admits (v.narrow t) := by
  intro f n hf hn
  cases v with
  | int m =>
    cases hn
    exact ⟨_, f.holds_reduce m.toInt, CType.narrow_eq_reduce hf ht m⟩
  | _ => cases hn

/-- Arguments that a function can be called with have integers of the types of the parameters. -/
def FunctionUnit.Admits (u : FunctionUnit) (arguments : Array Value) : Prop :=
  ∀ (k : Nat) p v, u.parameterList[k]? = some p → arguments[k]? = some v → p.type.Admits v

/-- A call has integers of the types of its parameters, if it is one of a function. -/
def Activation.Admitted (fs : List CompiledFunction) (a : Activation) : Prop :=
  ∀ f ∈ fs, f.method = a.method → f.unit.Admits a.arguments

namespace Run

/-- All calls have integers of the types of their parameters. -/
def Admitted (fs : List CompiledFunction) (r : Run) : Prop :=
  ∀ a ∈ r.current :: r.callers, a.Admitted fs

/-- A call that begins gets integers of the types of its parameters. -/
def PassesAdmitted (program : Module) (fs : List CompiledFunction) (r : Run) : Prop :=
  ∀ ref m, r.current.instruction? = some (.call ref) → program.findMethod? ref.name = some m →
    ∀ f ∈ fs, f.method = m →
      f.unit.Admits (r.current.stack.take m.parameters.length).reverse.toArray

end Run

section

variable {fs : List CompiledFunction} {program : Module} {limits : Limits} {a b : Activation}
  {r r' : Run}

namespace Activation.Admitted

/-- What happens to the stack and the local variables makes no difference. -/
theorem same (h : a.Admitted fs) (hm : b.method = a.method) (ha : b.arguments = a.arguments) :
    b.Admitted fs := fun f hf hfm => ha ▸ h f hf (hfm.trans hm)

/-- What is stored in a parameter is of its type. -/
theorem store (h : a.Admitted fs) {slot : UInt16} {q : MethodParameter} (v : Value)
    (hq : a.method.parameters[slot.toNat]? = some q) (hm : b.method = a.method)
    (hb : b.arguments = a.arguments.setIfInBounds slot.toNat (v.narrow q.type)) : b.Admitted fs := by
  intro f hf hfm k p w hp hw
  rw [hb, Array.getElem?_setIfInBounds] at hw
  split at hw
  · rename_i hslot
    have htypes := f.code.parameterTypes
    obtain ⟨t, ht, hat⟩ := Except.getElem?_of_mapM htypes hp
    rw [hfm, hm, List.getElem?_map, ← hslot, hq] at hat
    cases hat
    split at hw
    · cases hw
      exact CType.admits_narrow ht v
    · cases hw
  · exact h f hf (hfm.trans hm) k p w hp hw

/-- An instruction keeps the arguments, and what it stores in them is of their types. -/
theorem executes {i : Instruction} {s t : Store} (h : a.Admitted fs) (hexec : a.Executes s i b t) :
    b.Admitted fs := by
  cases hexec with
  | storeArgument hs hq => exact h.store _ hq rfl rfl
  | _ => exact h.same rfl rfl

end Activation.Admitted

namespace Run

/-- A step leaves calls with integers of the types of their parameters, if it passes such integers to
the call that it begins. -/
theorem PassesAdmitted.step (hpasses : r.PassesAdmitted program fs) (h : r.Admitted fs)
    (hstep : r.StepsTo program limits (.more r')) : r'.Admitted fs :=
  hstep.forall_calls (fun _ _ hm harguments _ ha => ha.same hm harguments)
    (fun _ _ _ hexec ha => ha.executes hexec) (fun _ _ _ hi hm _ => hpasses _ _ hi hm) h

/-- Calls have integers of the types of their parameters as long as the program runs. -/
theorem PassesAdmitted.keeps (hleads : r.LeadsBy program limits (PassesAdmitted program fs) r')
    (h : r.Admitted fs) : r'.Admitted fs :=
  hleads.keeps (fun _ _ hpasses h hstep => hpasses.step h hstep) h

end Run

/-- A call that returns leaves what is on top of its stack on that of its caller. -/
theorem Run.returned_value {caller : Activation} {callers : List Activation} {v : Value}
    {rest : List Value} (hstep : r.step program limits = .more r') (hlimit : r.steps < limits.steps)
    (hi : r.current.instruction? = some .ret) (hpending : r.current.pending = [])
    (hvoid : r.current.method.returnType ≠ .void) (hcallers : r.callers = caller :: callers)
    (hstack : r.current.stack = v :: rest) :
    r'.callers = callers ∧ r'.current.stack = v :: caller.stack := by
  have hreturned : StepsTo program limits r _ :=
    .returned hlimit hi (.inr ⟨hvoid, v, rest, hstack, rfl⟩) hpending
  rw [hreturned.step_eq, hcallers] at hstep
  cases hstep
  exact ⟨rfl, rfl⟩

end

/-- In a compiled program conversions between integer types are right up to the modulus of the type, and
they are right exactly where the type has 64 bits or the integer that is left. Parameters are read as
integers of their types as long as calls pass such integers, and a call leaves on the stack of its caller
what is on top of its own when it returns. -/
theorem TranslationUnit.compile_converts {unit : TranslationUnit} {name : String} {m : Module}
    (h : unit.compile name = .ok m) :
    (∀ (source target : CType) (f g : IntegerFormat), IntegerFormat.of? source = some f →
      IntegerFormat.of? target = some g → ∀ (s : Scope) (location : Location),
        ∃ t, Yields (Emit.coerce source target location) s () t ∧
          ∀ (program : Module) (a : Activation) (x y : Int) (rest : List Value),
            t.assembler.method.Extends a.method → a.pc = s.offset →
            a.stack = .int (.ofInt x) :: rest → f.Holds x → g.IsConversion x y →
            ∃ w, a.Reaches program { a with stack := .int w :: rest, pc := t.offset } ∧
              g.reduce w.toInt = y ∧
              (w = .ofInt y ↔ g.bits = 64 ∨ g.Holds (f.coerced g x))) ∧
    ∃ fs : List CompiledFunction,
      unit.functions.mapM FunctionUnit.ofDefinition = .ok (fs.map (·.unit)) ∧
      (∀ f ∈ fs, f.method ∈ m.methods) ∧
      (∀ (limits : Limits) (r r' : Run), r.Admitted fs →
        r.LeadsBy m limits (Run.PassesAdmitted m fs) r' →
        ∀ f ∈ fs, f.method = r'.current.method →
          ∀ (slot : UInt16) (p : Parameter), f.unit.parameterList[slot.toNat]? = some p →
            ∀ b t, r'.current.Executes r'.store (.loadArgument slot) b t →
              ∃ v, b.stack = v :: r'.current.stack ∧ p.type.Admits v) ∧
      ∀ (limits : Limits) (r r' : Run) (caller : Activation) (callers : List Activation),
        r.step m limits = .more r' → r.steps < limits.steps →
        r.current.instruction? = some .ret → r.current.pending = [] →
        r.current.method.returnType ≠ .void → r.callers = caller :: callers →
        ∀ v rest, r.current.stack = v :: rest →
          r'.callers = callers ∧ r'.current.stack = v :: caller.stack := by
  refine ⟨fun source target f g hf hg s location => ?_, ?_⟩
  · obtain ⟨hyields, hleaves⟩ := Emit.coerce_leaves hf hg s location
    refine ⟨_, hyields, fun program a x y rest hM hpc hstack hx hy => ?_⟩
    obtain rfl := IntegerFormat.isConversion_iff.1 hy
    refine ⟨_, hleaves program a x rest hM hpc hstack, ?_, IntegerFormat.ofInt_coerced_iff hx⟩
    rw [IntegerFormat.reduce_word, IntegerFormat.reduce_coerced]
  · obtain ⟨fs, p, hbuilt, rfl, hfs⟩ := built_of_compile h
    refine ⟨fs, hfs, fun f hf => hbuilt.method_mem hf, ?_, ?_⟩
    · intro limits r r' hr hleads f hf hmethod slot p hp b t hexec
      cases hexec with
      | loadArgument hv =>
        have hadmitted := Run.PassesAdmitted.keeps hleads hr r'.current List.mem_cons_self
        exact ⟨_, rfl, hadmitted f hf hmethod _ _ _ hp hv⟩
      | onTop htop => cases htop
      | onTop2 htop => cases htop
    · exact fun limits r r' caller callers hstep hlimit hi hpending hvoid hcallers v rest hstack =>
        Run.returned_value hstep hlimit hi hpending hvoid hcallers hstack

/-- A program with a function that returns its only parameter, which is a `char`. -/
def TranslationUnit.widens : TranslationUnit :=
  ⟨[Construct.intFunction "widen"
    (some (Construct.parameterList [Construct.namedParameter Construct.charSpecifier 0 "c"] false))
    [Construct.ret (some (Construct.name "c"))]]⟩

/-- The function of that program. -/
def FunctionUnit.widens : FunctionUnit where
  name := "widen"
  returnType := .int
  parameters := some ⟨[⟨.primitive .char, some "c"⟩], false, false⟩
  body := .block [.ret (some (Construct.name "c")) .unknown]
  location := .unknown

/-- When that function is called with 44, it reads a `char`. -/
theorem TranslationUnit.compile_widens : ∃ m, widens.compile "widens" = .ok m ∧
    ∃ method ∈ m.methods, ∀ b t, (method.start [.int 44]).Executes default (.loadArgument 0) b t →
      ∃ v, b.stack = [v] ∧ (CType.primitive .char).Admits v := by
  have hcompiles : (widens.compile "widens").toOption.isSome = true := by decide +kernel
  obtain ⟨m, hm⟩ := Option.isSome_iff_exists.1 hcompiles
  have hcompile := Except.of_toOption hm
  have hunits : widens.functions.mapM FunctionUnit.ofDefinition = .ok [.widens] := by cbv
  obtain ⟨-, fs, hfs, hmem, hreads, -⟩ := compile_converts hcompile
  obtain ⟨F, rfl, hF⟩ := List.map_eq_singleton_iff.1 (Except.ok.inj (hfs.symm.trans hunits))
  refine ⟨m, hcompile, F.method, hmem F (List.mem_singleton_self F), fun b t hexec => ?_⟩
  have hstart : Run.Admitted [F] ⟨default, 0, F.method.start [.int 44], []⟩ := by
    refine List.forall_mem_singleton.2 (List.forall_mem_singleton.2 fun _ k q v hq hv => ?_)
    rw [hF] at hq
    cases k with
    | zero =>
      cases hq
      cases hv
      rintro f n ⟨⟩ ⟨⟩
      exact ⟨44, by decide, rfl⟩
    | succ k => cases hq
  exact hreads ⟨1, 1⟩ _ _ hstart .refl F (List.mem_singleton_self F) rfl 0 _ (by rw [hF]; rfl) b t hexec

end ManagedC
