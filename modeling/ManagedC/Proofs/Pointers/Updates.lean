import ManagedC.Proofs.Emit.Elsewhere
import ManagedC.Proofs.Pointers.Effects
import ManagedC.Proofs.Pointers.Elements

/-!
# Combined assignments

A combined assignment such as `t += e` is short for `t = t + e`. Its code evaluates the address of the target
once and copies it; the code of the long form evaluates the address twice. If neither the address nor the value
has side effects, both come to the same: the same value is left and the same is stored, or there is a fault of
the same kind (`Expression.update_expands`). The long form takes more steps, so a limit may end it alone.
-/

namespace ManagedC

open Instruction

/-! ## Conversions -/

/-- A value of one type as a value of another. -/
def CType.convert (source target : CType) (v : Value) : Except Fault.Kind Value :=
  if source = target || source.isPointer && target.isPointer then .ok v
  else if target.isPointer then v.native
  else if target.isLong && !source.isLong then v.native
  else if !target.isLong && source.isLong then
    ((.int <| TargetType.narrow .int32 ·) <$> v.asInt).mapError Fault.kind
  else .ok v

/-- The code of a conversion converts. -/
theorem Instruction.maps_coercion (store : Store) (source target : CType) :
    Maps store (coercion source target) (source.convert target) := by
  intro a v rest ha
  unfold coercion CType.convert
  split
  · exact maps_nil a v rest ha
  · split
    · exact maps_native a v rest ha
    · split
      · exact maps_long a v rest ha
      · split
        · exact maps_onTop (i := .convInt32) rfl a v rest ha
        · exact maps_nil a v rest ha

namespace Setting

variable {E : Setting} {S : Stage} {u t : Scope} {a : Activation} {rest : List Value} {v p : Value}
  {stored : TargetType}

/-! ## What is assigned -/

section

variable {type : CType} {combined : Except Fault.Kind Value}

/-- What has been evaluated is converted and stored in a variable. -/
theorem ends_converted_assign {x : Variable} (ha : E.Ends S a u rest (combined.map E.unchanged))
    (hx : a.method.Declares x.slot stored)
    (hM : (u.append [] (coercion type x.type ++ [.dup, x.store])).assembler.method.Extends a.method) :
    E.Ends S a (u.append [] (coercion type x.type ++ [.dup, x.store])) rest
      (combined >>= fun v => type.convert x.type v >>= fun v => .ok (E.assigned x stored v)) := by
  have hsplit : u.append [] (coercion type x.type ++ [.dup, x.store]) =
      (u.append [] (coercion type x.type)).append [] [.dup, x.store] := by simp
  rw [hsplit] at hM ⊢
  have huM := (Scope.emits_append _ _ x.isPlain_store).extends hM
  have hconverted := Course.append (C := E.within S) ha huM (maps_coercion E.store type x.type)
  rw [← bind_assoc]
  refine Ends.bind hconverted fun v b _ hb hmethod hstack => ?_
  rw [← hmethod] at hM hx
  exact hb.ends_assign hx hM hstack

/-- What has been evaluated is converted and stored through an address. -/
theorem ends_converted_store {element : CType} (ha : E.Ends S a u (p :: rest) (combined.map E.unchanged))
    (hM : (u.append [stored] (coercion type element ++ [.dup, .storeLocal u.nextSlot, .store stored,
      .loadLocal u.nextSlot])).assembler.method.Extends a.method) :
    E.Ends S a (u.append [stored] (coercion type element ++ [.dup, .storeLocal u.nextSlot, .store stored,
      .loadLocal u.nextSlot])) rest
      (combined >>= fun v => type.convert element v >>= E.storing stored p) := by
  have hslot : (u.append [] (coercion type element)).nextSlot = u.nextSlot := by
    simp [Scope.nextSlot, Scope.append]
  have hsplit : u.append [stored] (coercion type element ++ [.dup, .storeLocal u.nextSlot, .store stored,
      .loadLocal u.nextSlot]) = (u.append [] (coercion type element)).append [stored] [.dup,
        .storeLocal (u.append [] (coercion type element)).nextSlot, .store stored,
        .loadLocal (u.append [] (coercion type element)).nextSlot] := by
    rw [hslot]
    simp
  rw [hsplit] at hM ⊢
  have huM := (Scope.emits_append _ _ (by simp [Instruction.isPlain])).extends hM
  have hconverted := Course.append (C := E.within S) ha huM (maps_coercion E.store type element)
  rw [← bind_assoc]
  refine Ends.bind hconverted fun v b _ hb hmethod hstack => ?_
  rw [← hmethod] at hM
  exact hb.ends_storing hM hstack

end

/-! ## The two forms -/

/-- What is left when the value of a variable is combined with another and stored there. -/
def updatingVariable (E : Setting) (op : ArithmeticOp) (x : Variable) (valueType : CType) (stored : TargetType)
    (second : Except Fault.Kind Value) (v : Value) : Except Fault.Kind Effect := do
  let v ← BinaryOp.combine (.arithmetic op) x.type valueType v (← second)
  let v ← ((BinaryOp.arithmetic op).resultType x.type valueType).convert x.type v
  .ok (E.assigned x stored v)

/-- What is left when the value at an address is combined with another and stored there. -/
def updatingPlace (E : Setting) (op : ArithmeticOp) (element valueType : CType) (stored : TargetType)
    (second : Except Fault.Kind Value) (p : Value) : Except Fault.Kind Effect := do
  let v ← E.load stored p
  let w ← second
  let v ← BinaryOp.combine (.arithmetic op) element valueType v w
  let v ← ((BinaryOp.arithmetic op).resultType element valueType).convert element v
  E.storing stored p v

section

variable {s : Scope} {op : ArithmeticOp} {target value : Expression} {span span' span'' : Span}
  {element valueType type : CType} {first second : Except Fault.Kind Value}

/-- What an assignment of a combined value to a variable ends with. -/
theorem Has.ends_expansion_variable {x : Variable} {name : String} (ha : E.Has s a)
    (hx : E.scope.findVariable? name = some x) (hv : E.kept? x.slot = some v)
    (hvalue : (E.within S).Settles (.value value) valueType second)
    (hcode : Emission.Code s (.value (.assignment span none (.identifier span' name)
      (.binary span'' (.arithmetic op) (.identifier span' name) value)) type) t)
    (hdeclared : a.method.Declares x.slot stored) (hM : t.assembler.method.Extends a.method) :
    type = x.type ∧ E.Ends S a t a.stack (E.updatingVariable op x valueType stored second v) := by
  have hread : (E.within S).Settles (.value (.identifier span' name)) x.type (.ok v) := .read hx hv
  have hsum : (E.within S).Settles (.value (.binary span'' (.arithmetic op) (.identifier span' name) value)) _ _ :=
    hread.operator nofun hvalue
  cases hcode with
  | @assign _ u _ _ _ _ y resultType hfound hresult =>
    rw [ha.sees.findVariable?, hx] at hfound
    obtain rfl := Option.some.inj hfound
    obtain rfl := hsum.typed ha.sees hresult
    have huM := (Scope.emits_append _ _ (List.forall_mem_append.2 ⟨isPlain_coercion, x.isPlain_store⟩)).extends hM
    have hends := ends_converted_assign (hsum.meets hresult ha huM) hdeclared hM
    simp only [bind_assoc] at hends
    exact ⟨rfl, hends⟩
  | assignThrough haddress => cases haddress
  | load haddress => cases haddress

/-- What an assignment of a combined value through an address ends with. -/
theorem Has.ends_expansion_place (ha : E.Has s a) (htarget : target.isPlace = true)
    (haddress : (E.within S).Settles (.address target) element first) (hstored : element.target = .ok stored)
    (hvalue : (E.within S).Settles (.value value) valueType second)
    (hcode : Emission.Code s (.value (.assignment span none target
      (.binary span'' (.arithmetic op) target value)) type) t)
    (hM : t.assembler.method.Extends a.method) :
    type = element ∧ E.Ends S a t a.stack (first >>= E.updatingPlace op element valueType stored second) := by
  cases hcode with
  | assign => cases htarget
  | @assignThrough _ u w _ _ _ element' resultType stored' hcodeAddress hstored' hresult =>
    obtain rfl := haddress.typed ha.sees hcodeAddress
    obtain rfl := Except.ok.inj (hstored.symm.trans hstored')
    have hsum : (E.within S).Settles (.value (.binary span'' (.arithmetic op) target value)) _ _ :=
      (haddress.load htarget hstored).operator nofun hvalue
    obtain rfl := hsum.typed (ha.sees.emits hcodeAddress.emits) hresult
    have hwM := (Scope.emits_append _ _
      (List.forall_mem_append.2 ⟨isPlain_coercion, by simp [Instruction.isPlain]⟩)).extends hM
    refine ⟨rfl, Ends.bind (haddress.meets hcodeAddress ha (hresult.emits.extends hwM)) ?_⟩
    intro p b hp hb hmethod hstack
    rw [hp] at hsum
    rw [← hmethod] at hM hwM
    have hmeets := hsum.meets hresult hb hwM
    rw [hstack] at hmeets
    have hends := ends_converted_store hmeets hM
    simp only [bind_assoc] at hends
    exact hends
  | load haddress => cases haddress

/-- What a combined assignment through an address ends with. -/
theorem Has.ends_update_place (ha : E.Has s a) (htarget : target.isPlace = true)
    (haddress : (E.within S).Settles (.address target) element first) (hstored : element.target = .ok stored)
    (hvalue : (E.within S).Settles (.value value) valueType second)
    (hcode : Emission.Code s (.value (.assignment span (some (.arithmetic op)) target value) type) t)
    (hM : t.assembler.method.Extends a.method) :
    type = element ∧ E.Ends S a t a.stack (first >>= E.updatingPlace op element valueType stored second) := by
  cases hcode with
  | update => cases htarget
  | @updateThrough _ u w _ _ _ _ _ element' valueType' resultType stored' ts code hcodeAddress hstored' hright
      hoperator hconv hw =>
    subst hw
    obtain rfl := haddress.typed ha.sees hcodeAddress
    obtain rfl := Except.ok.inj (hstored.symm.trans hstored')
    have hcopy : u.Emits (u.append [] [.dup, .load stored]) :=
      Scope.emits_append _ _ (by simp [Instruction.isPlain])
    obtain rfl := hvalue.typed ((ha.sees.emits hcodeAddress.emits).emits hcopy) hright
    obtain rfl := hoperator.type_eq
    have hwM := (Scope.emits_append _ _
      (List.forall_mem_append.2 ⟨isPlain_coercion, by simp [Instruction.isPlain]⟩)).extends hM
    have hcopyM := hright.emits.extends ((Scope.emits_append _ _ hoperator.isPlain).extends hwM)
    refine ⟨rfl, Ends.bind (haddress.meets hcodeAddress ha (hcopy.extends hcopyM)) ?_⟩
    intro p b hp hb hmethod hstack
    rw [← hmethod] at hM hwM hcopyM
    let copied : Activation := { b with stack := p :: p :: a.stack }.advance
    have hdup : b.Follows E.store [.dup] copied := .cons rfl (.dup hstack) rfl .nil
    have hloaded : (E.within S).Meets b (u.append [] [.dup, .load stored]) (p :: a.stack) (E.load stored p) :=
      (E.within S).computes (hb.computes_turns hcopyM hdup (fun _ _ => rfl)
        (maps_load E stored copied p (p :: a.stack) rfl))
    have hcombined := (E.within S).bind hloaded fun v c _ hc hmethod' hstack' =>
      Course.operate hvalue hright hoperator (hmethod' ▸ hwM) hc hstack'
    have hends := ends_converted_store hcombined hM
    simp only [bind_assoc] at hends
    exact hends
  | load haddress => cases haddress

end

/-! ## Evaluation without side effects -/

/-- The evaluation of a part of an expression has no side effects, and is the same in two programs: wherever the
part is compiled, it comes to one value or fault, and changes nothing. -/
def Quiet (E : Setting) (S S' : Stage) (program' : Module) (part : CType → Emission) : Prop :=
  ∃ type outcome, (E.within S).Settles part type outcome ∧
    (({ E with program := program' } : Setting).within S').Settles part type outcome

section

variable {S' : Stage} {program' : Module} {e : Expression}

/-- Whatever is said of code that there is nowhere holds. -/
theorem Course.settles_of_absent {C : E.Course Fault.Kind} {part : CType → Emission} {type : CType}
    {outcome : Except Fault.Kind Value} (h : ∀ u t type, E.Sees u → ¬ Emission.Code u (part type) t) :
    C.Settles part type outcome where
  typed hu hcode := absurd hcode (h _ _ _ hu)
  meets hcode ha _ := absurd hcode (h _ _ _ ha.sees)

/-- What is compiled nowhere has no side effects. -/
theorem quiet_of_absent {part : CType → Emission} (h : ∀ u t type, E.Sees u → ¬ Emission.Code u (part type) t) :
    E.Quiet S S' program' part :=
  ⟨.int, .error .invalidProgram, Course.settles_of_absent h, Course.settles_of_absent h⟩

variable (hvalues : ∀ p ∈ E.scope.names, (E.kept? p.2.slot).isSome)

include hvalues

/-- An expression without assignments and calls is evaluated without side effects. -/
theorem quiet_value (he : e.isPure = true) : E.Quiet S S' program' (.value e) := by
  by_cases hcompiled : ∃ u t type, E.Sees u ∧ Emission.Code u (.value e type) t
  · obtain ⟨u, t, type, hu, hcode⟩ := hcompiled
    have hsettles := Course.exists_settles
      (fun first : Bool => ({ E with program := cond first E.program program' } : Setting).within (cond first S S'))
      (fun _ => rfl) hvalues e he hu hcode
    obtain ⟨outcome, h⟩ := hsettles
    exact ⟨type, outcome, h true, h false⟩
  · exact quiet_of_absent fun u t type hu hcode => hcompiled ⟨u, t, type, hu, hcode⟩

/-- So is its address. -/
theorem quiet_address (he : e.isPure = true) : E.Quiet S S' program' (.address e) := by
  by_cases hcompiled : ∃ u t type, E.Sees u ∧ Emission.Code u (.address e type) t
  · obtain ⟨u, t, type, hu, hcode⟩ := hcompiled
    cases hcode with
    | @subscript _ v _ _ array index _ _ _ _ _ hleft hright hoperator =>
      obtain ⟨hlpure, hrpure⟩ := Bool.and_eq_true_iff.1 he
      have hleftQuiet : E.Quiet S S' program' (.value array) := quiet_value hvalues hlpure
      have hrightQuiet : E.Quiet S S' program' (.value index) := quiet_value hvalues hrpure
      obtain ⟨left, first, hfirst, hfirst'⟩ := hleftQuiet
      obtain ⟨right, second, hsecond, hsecond'⟩ := hrightQuiet
      obtain rfl := hfirst.typed hu hleft
      obtain rfl := hsecond.typed (hu.emits hleft.emits) hright
      have helement := hoperator.type_eq.symm
      exact ⟨type, _, hfirst.subscript hsecond helement, hfirst'.subscript hsecond' helement⟩
    | @dereference _ _ _ pointer _ hpointer =>
      have hpure : pointer.isPure = true := he
      have hquiet : E.Quiet S S' program' (.value pointer) := quiet_value hvalues hpure
      obtain ⟨_, outcome, h, h'⟩ := hquiet
      obtain rfl := h.typed hu hpointer
      exact ⟨type, outcome, h.dereference, h'.dereference⟩
  · exact quiet_of_absent fun u t type hu hcode => hcompiled ⟨u, t, type, hu, hcode⟩

end

/-! ## Endings that do not depend on where the code stands -/

/-- A call is about to execute the code of an expression in the setting. The variables have certain types. -/
structure Begins (E : Setting) (types : Slot → TargetType) (e : Expression) (type : CType) (s t : Scope)
    (a : Activation) : Prop where
  has : E.Has s a
  /-- The variables have their types. -/
  declares : ∀ p ∈ E.scope.names, a.method.Declares p.2.slot (types p.2.slot)
  compiles : Yields e.compile s type t
  kept : t.assembler.method.Extends a.method

/-- Wherever the code of an expression stands, the expression has one type, and the code one ending. -/
def Concludes (E : Setting) (types : Slot → TargetType) (S : Stage) (e : Expression) (type : CType)
    (ending : Except Fault.Kind Effect) : Prop :=
  ∀ {s t : Scope} {a : Activation} {type' : CType}, E.Begins types e type' s t a →
    type' = type ∧ E.Ends S a t a.stack ending

end Setting

/-- A call of a function that contains an expression begins with its code when control comes there. -/
theorem CompiledFunction.Contains.begins {f : CompiledFunction} {s t : Scope} {e : Expression} {type : CType}
    {a : Activation} (h : f.Contains s e type t) (ha : f.Stands s a) (program : Module) (store : Store) :
    ∃ types, Setting.Begins ⟨program, s, a.kept?, store⟩ types e type s t a := by
  classical
  refine ⟨fun slot => if h : ∃ target, a.method.Declares slot target then h.choose else .int32,
    ha.has program store, fun p hp => ?_, h.compiles, ha.method ▸ h.kept⟩
  have hexists : ∃ target, a.method.Declares p.2.slot target := ha.declares hp
  rw [dif_pos hexists]
  exact hexists.choose_spec

/-- Only what designates something at an address has an address. -/
theorem Emission.Code.isPlace {s t : Scope} {e : Expression} {type : CType} (h : Code s (.address e type) t) :
    e.isPlace = true := by
  cases h <;> rfl

/-- A combined assignment to a variable has the code of the assignment that it is short for. -/
theorem Emission.Code.expand {s t : Scope} {op : BinaryOp} {name : String} {value : Expression} {type : CType}
    {span span' : Span}
    (h : Code s (.value (.assignment span (some op) (.identifier span' name) value) type) t)
    (span'' span''' : Span) : Code s (.value (.assignment span'' none (.identifier span' name)
      (.binary span''' op (.identifier span' name) value)) type) t := by
  cases h with
  | update hfound hright hoperator hconv =>
    have hsum : Code s (.value (.binary span''' op (.identifier span' name) value) _) _ :=
      .binary (.identifier hfound) hright hoperator
    have hcode : Code s (.value (.assignment span'' none (.identifier span' name) _) _) _ :=
      .assign hfound hsum hconv
    rw [Scope.append_append, List.append_nil, ← List.append_assoc] at hcode
    exact hcode
  | updateThrough haddress => cases haddress
  | load haddress => cases haddress

namespace Setting

section

variable {E : Setting} {S S' : Stage} {program' : Module} {types : Slot → TargetType} {op : ArithmeticOp}
  {target value : Expression} {span span' span'' : Span} {s t : Scope} {a : Activation} {type : CType}

/-- A variable to which something is assigned has a value. -/
theorem Has.exists_kept {name : String} {v : Expression} (ha : E.Has s a)
    (hdeclares : ∀ p ∈ E.scope.names, a.method.Declares p.2.slot (types p.2.slot))
    (hcode : Emission.Code s (.value (.assignment span none (.identifier span' name) v) type) t) :
    ∃ x w, E.scope.findVariable? name = some x ∧ E.kept? x.slot = some w := by
  cases hcode with
  | @assign _ _ _ _ _ _ x _ hfound =>
    rw [ha.sees.findVariable?] at hfound
    have hp := Scope.mem_names_of_findVariable? hfound
    obtain ⟨w, hw⟩ := Option.isSome_iff_exists.1 (ha.sized.isSome_kept? (hdeclares _ hp))
    exact ⟨x, w, hfound, (ha.kept _ hp).symm.trans hw⟩
  | assignThrough haddress => cases haddress
  | load haddress => cases haddress

/-- Both ways to write an update of a variable have one ending. -/
theorem concludes_variable (name : String) (span₁ : Span) (hvalue : E.Quiet S S' program' (.value value)) :
    ∃ type ending, E.Concludes types S
        (.assignment span (some (.arithmetic op)) (.identifier span₁ name) value) type ending ∧
      Setting.Concludes { E with program := program' } types S' (.assignment span' none (.identifier span₁ name)
        (.binary span'' (.arithmetic op) (.identifier span₁ name) value)) type ending := by
  obtain ⟨valueType, second, hsecond, hsecond'⟩ := hvalue
  by_cases hfound : ∃ x v, E.scope.findVariable? name = some x ∧ E.kept? x.slot = some v
  · obtain ⟨x, v, hx, hv⟩ := hfound
    have hp := Scope.mem_names_of_findVariable? hx
    refine ⟨x.type, E.updatingVariable op x valueType (types x.slot) second v, fun h => ?_, fun h => ?_⟩
    · have hcode := (Expression.code_compile _ h.compiles).expand span' span''
      exact h.has.ends_expansion_variable hx hv hsecond hcode (h.declares _ hp) h.kept
    · have hcode := Expression.code_compile _ h.compiles
      exact h.has.ends_expansion_variable hx hv hsecond' hcode (h.declares _ hp) h.kept
  · refine ⟨.int, .error .invalidProgram, fun h => ?_, fun h => ?_⟩
    · have hcode := (Expression.code_compile _ h.compiles).expand span' span''
      exact absurd (h.has.exists_kept h.declares hcode) hfound
    · exact absurd (h.has.exists_kept h.declares (Expression.code_compile _ h.compiles)) hfound

/-- Both ways to write an update of what is at an address have one ending. -/
theorem concludes_place (hplace : target.isPlace = true) (haddress : E.Quiet S S' program' (.address target))
    (hvalue : E.Quiet S S' program' (.value value)) :
    ∃ type ending, E.Concludes types S (.assignment span (some (.arithmetic op)) target value) type ending ∧
      Setting.Concludes { E with program := program' } types S'
        (.assignment span' none target (.binary span'' (.arithmetic op) target value)) type ending := by
  obtain ⟨element, first, hfirst, hfirst'⟩ := haddress
  obtain ⟨valueType, second, hsecond, hsecond'⟩ := hvalue
  cases hstored : element.target with
  | ok stored =>
    exact ⟨element, _, fun h => h.has.ends_update_place hplace hfirst hstored hsecond
      (Expression.code_compile _ h.compiles) h.kept, fun h => h.has.ends_expansion_place hplace hfirst' hstored
      hsecond' (Expression.code_compile _ h.compiles) h.kept⟩
  | error refusal =>
    refine ⟨element, .error .invalidProgram, fun h => ?_, fun h => ?_⟩
    · cases Expression.code_compile _ h.compiles with
      | update => cases hplace
      | updateThrough hcode hstored' =>
        obtain rfl := hfirst.typed h.has.sees hcode
        cases hstored.symm.trans hstored'
      | load hcode => cases hcode
    · cases Expression.code_compile _ h.compiles with
      | assign => cases hplace
      | assignThrough hcode hstored' =>
        obtain rfl := hfirst'.typed h.has.sees hcode
        cases hstored.symm.trans hstored'
      | load hcode => cases hcode

end

end Setting

/-- A combined assignment is compiled where the assignment that it is short for is. If neither the address of the
target nor the value has side effects, both have one ending wherever they stand in two programs, as far as so many
steps may be made: the same value is left, with the same variables and memory, or there is a fault of the same
kind. -/
theorem Expression.update_expands (op : ArithmeticOp) (target value : Expression) (span span' span'' : Span) :
    (∀ (s : Scope) (type : CType), s.Allots →
      ((∃ t, Yields (assignment span (some (.arithmetic op)) target value).compile s type t) ↔
        ∃ t, Yields (assignment span' none target (binary span'' (.arithmetic op) target value)).compile
          s type t)) ∧
    ∀ (E : Setting) (types : Slot → TargetType) (program' : Module) (S S' : Stage),
      (target.isPlace = true → E.Quiet S S' program' (.address target)) →
      E.Quiet S S' program' (.value value) →
      ∃ type ending,
        E.Concludes types S (assignment span (some (.arithmetic op)) target value) type ending ∧
        Setting.Concludes { E with program := program' } types S'
          (assignment span' none target (binary span'' (.arithmetic op) target value)) type ending := by
  refine ⟨fun s type hs => compiles_update_iff hs op target value type span span' span'', ?_⟩
  intro E types program' S S' haddress hvalue
  cases hplace : target.isPlace with
  | true => exact Setting.concludes_place hplace (haddress hplace) hvalue
  | false =>
    cases target with
    | identifier span name => exact Setting.concludes_variable name span hvalue
    | _ =>
      -- Nothing else is compiled as a target.
      refine ⟨.int, .error .invalidProgram, fun h => ?_, fun h => ?_⟩
      · cases code_compile _ h.compiles with
        | updateThrough hcode => cases hplace.symm.trans hcode.isPlace
        | load hcode => cases hcode
      · cases code_compile _ h.compiles with
        | assignThrough hcode => cases hplace.symm.trans hcode.isPlace
        | load hcode => cases hcode

/-! ## An update of a character -/

namespace Construct

/-- A target with one added to it, in one step. -/
def increase (target : Expression) : Expression := assign (some (.arithmetic .add)) target (int 1)

/-- The same in two steps. -/
def replaceByNext (target : Expression) : Expression :=
  assign none target (binary (.arithmetic .add) target (int 1))

end Construct

/-- A scope with the name of a pointer to characters. -/
def Scope.withText : Scope :=
  (Scope.begin default default).openBlock.declareVariable "p" (.pointer (.primitive .char)) (.pointer .uint8)

/-- The pointer leads to two characters. -/
def Setting.withText : Setting where
  program := default
  scope := .withText
  kept? slot := if slot = .local 0 then some (.pointer ⟨.native 0, 0, false⟩) else none
  store := { heap := { blocks := #[.live [97, 98, 0]] } }

/-- A call that has some code to execute, with a pointer to two characters and a temporary. -/
def Activation.withText (code : List Instruction) : Activation where
  method := (Scope.withText.append [.uint8] code).assembler.method
  regions := []
  arguments := #[]
  locals := #[.pointer ⟨.native 0, 0, false⟩, .null]
  stack := []
  pc := 0
  pending := []

/-- It begins with that code. -/
theorem Setting.begins_withText {e : Expression} {type : CType} {code : List Instruction}
    (h : Yields e.compile Scope.withText type (Scope.withText.append [.uint8] code)) :
    Setting.withText.Begins (fun _ => .pointer .uint8) e type .withText (Scope.withText.append [.uint8] code)
      (.withText code) := by
  refine ⟨⟨rfl, fun q hq => ?_, (by decide : 2 ≤ 2 ^ 16), ⟨rfl, rfl⟩, rfl, fun q hq => ?_⟩, fun q hq => ?_, h,
    .refl _⟩
  all_goals obtain rfl := List.mem_singleton.1 hq
  · exact Nat.zero_lt_one
  · rfl
  · exact @Method.Declares.local _ _ ⟨some "p", _, false⟩ rfl rfl

/-- The second of the characters is increased, in one step and in two. -/
theorem Setting.ends_withText :
    let target := Construct.subscript (Construct.name "p") (Construct.int 1)
    ∃ t t' a a', Yields (Construct.increase target).compile Scope.withText (.primitive .char) t ∧
      Yields (Construct.replaceByNext target).compile Scope.withText (.primitive .char) t' ∧
      ∃ ending, Setting.withText.Ends ⟨10, []⟩ a t a.stack ending ∧
        Setting.withText.Ends ⟨10, []⟩ a' t' a'.stack ending := by
  intro target
  have h : Setting.withText.Begins _ (Construct.increase target) _ _ _ _ :=
    @begins_withText _ (.primitive .char) [.loadLocal 0, .constInt32 1, .convNative, .binary .add,
      .dup, .load .uint8, .constInt32 1, .binary .add, .dup, .storeLocal 1, .store .uint8, .loadLocal 1] rfl
  have h' : Setting.withText.Begins _ (Construct.replaceByNext target) _ _ _ _ :=
    @begins_withText _ (.primitive .char) [.loadLocal 0, .constInt32 1, .convNative, .binary .add,
      .loadLocal 0, .constInt32 1, .convNative, .binary .add, .load .uint8, .constInt32 1, .binary .add,
      .dup, .storeLocal 1, .store .uint8, .loadLocal 1] rfl
  have hvalues : ∀ q ∈ Setting.withText.scope.names, (Setting.withText.kept? q.2.slot).isSome := by
    intro q hq
    obtain rfl := List.mem_singleton.1 hq
    rfl
  obtain ⟨_, ending, hends, hends'⟩ := (Expression.update_expands .add target (Construct.int 1) .unknown .unknown
    .unknown).2 .withText (fun _ => .pointer .uint8) default ⟨10, []⟩ ⟨10, []⟩
    (fun _ => quiet_address hvalues rfl) (quiet_value hvalues rfl)
  exact ⟨_, _, _, _, h.compiles, h'.compiles, ending, (hends h).2, (hends' h').2⟩

/-! ## Where the two forms differ -/

/-- How a program ends whose entry point has a body. -/
def TranslationUnit.resultOf? (body : List Statement) (limits : Limits) (args : List String) :
    Option (Except Failure Int32) := do
  let unit : TranslationUnit := ⟨[Construct.intFunction "main" (some Construct.commandLineParameters) body]⟩
  let m ← (unit.compile "update").toOption
  let (result, _) ← ({ program := m, limits := limits } : Session).runEntry args
  return result

/-- With 60 steps at most, a character is increased in one step but not in two; and what the address of the target
does is done once in the former case, twice in the latter. -/
theorem TranslationUnit.resultOf?_updates :
    let first := Construct.subscript (Construct.name "argv") (Construct.int 0)
    let character := Construct.subscript first (Construct.int 0)
    let moving := Construct.subscript first (Construct.replaceByNext (Construct.name "i"))
    let counting (e : Expression) := [Construct.declare Construct.intSpecifier 0 "i" (some (Construct.int 0)),
      Construct.evaluate e, Construct.ret (some (Construct.name "i"))]
    resultOf? [Construct.ret (some (Construct.increase character))] { steps := 60 } ["a"] = some (.ok 98) ∧
    (∃ c, resultOf? [Construct.ret (some (Construct.replaceByNext character))] { steps := 60 } ["a"] =
      some (.error (.crash c)) ∧ c.fault.kind = .stepLimitExceeded) ∧
    resultOf? (counting (Construct.increase moving)) {} ["ab"] = some (.ok 1) ∧
    resultOf? (counting (Construct.replaceByNext moving)) {} ["ab"] = some (.ok 2) := by
  intro first character moving counting
  refine ⟨?_, ⟨⟨EntryPoint.starterName, 33, .stepLimitExceeded 60⟩, ?_, rfl⟩, ?_, ?_⟩ <;> decide +kernel

end ManagedC
