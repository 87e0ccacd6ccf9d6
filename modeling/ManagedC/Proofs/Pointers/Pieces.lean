import ManagedC.Proofs.Pointers.Settings

/-!
# Code that computes

Straight-line code that replaces the topmost value by another (`Instruction.Maps`) or the two topmost
values by one (`Instruction.Combines`) does so wherever it stands; pieces of such code compose. A piece can
also be executed below a value that waits in a temporary (`Setting.Has.computes_under`).
-/

namespace ManagedC

/-- Straight-line code leaves a value on top of some others and changes nothing else, or an instruction of
it faults. -/
def Activation.Turns (store : Store) (a : Activation) (code : List Instruction) (rest : List Value) :
    Except Fault.Kind Value → Prop
  | .ok v => a.Follows store code { a with stack := v :: rest, pc := a.pc + code.length }
  | .error kind => ∃ before i after b, code = before ++ i :: after ∧ a.Follows store before b ∧
      (b.instruction? = some i → b.FaultsNext store kind)

namespace Activation.Turns

variable {store : Store} {a : Activation} {code code' : List Instruction} {rest rest' : List Value}
  {first : Except Fault.Kind Value} {next : Value → Except Fault.Kind Value} {kind : Fault.Kind}

/-- What comes after a fault does not matter. -/
theorem fault_append (h : a.Turns store code rest (.error kind)) :
    a.Turns store (code ++ code') rest' (.error kind) := by
  obtain ⟨before, i, after, b, rfl, hfollows, hfaults⟩ := h
  exact ⟨before, i, after ++ code', b, by simp, hfollows, hfaults⟩

/-- Two pieces of code in sequence. -/
theorem append (h : a.Turns store code rest first)
    (h' : ∀ v, first = .ok v →
      { a with stack := v :: rest, pc := a.pc + code.length }.Turns store code' rest' (next v)) :
    a.Turns store (code ++ code') rest' (first >>= next) := by
  cases first with
  | error kind => exact h.fault_append
  | ok v =>
    have hnext := h' v rfl
    show a.Turns store (code ++ code') rest' (next v)
    cases hv : next v with
    | ok w =>
      rw [hv] at hnext
      have hfollows := Follows.append h hnext
      show a.Follows store (code ++ code') { a with stack := _, pc := a.pc + (code ++ code').length }
      rw [List.length_append, ← Nat.add_assoc]
      exact hfollows
    | error kind =>
      rw [hv] at hnext
      obtain ⟨before, i, after, b, rfl, hfollows, hfaults⟩ := hnext
      exact ⟨code ++ before, i, after, b, by simp, Follows.append h hfollows, hfaults⟩

end Activation.Turns

namespace Instruction

/-- The code replaces the topmost value. -/
def Maps (store : Store) (code : List Instruction) (f : Value → Except Fault.Kind Value) : Prop :=
  ∀ (a : Activation) (v : Value) (rest : List Value), a.stack = v :: rest →
    a.Turns store code rest (f v)

/-- The code replaces the two topmost values by one. -/
def Combines (store : Store) (code : List Instruction)
    (g : Value → Value → Except Fault.Kind Value) : Prop :=
  ∀ (a : Activation) (v w : Value) (rest : List Value), a.stack = w :: v :: rest →
    a.Turns store code rest (g v w)

variable {store : Store} {i : Instruction} {code code' : List Instruction}
  {f f' : Value → Except Fault.Kind Value} {g : Value → Value → Except Fault.Kind Value}

theorem maps_nil : Maps store [] .ok := by
  intro a v rest ha
  show a.Follows store [] { a with stack := v :: rest, pc := a.pc }
  rw [← ha]
  exact .nil

theorem maps_onTop {f : Value → Except Fault Value} (hi : i.onTop? = some f) :
    Maps store [i] fun v => (f v).mapError Fault.kind := by
  intro a v rest ha
  show a.Turns store [i] rest ((f v).mapError Fault.kind)
  cases hv : f v with
  | ok w => exact Activation.Follows.cons (Activation.isControl_onTop hi) (.onTop hi ha hv) rfl .nil
  | error fault => exact ⟨[], i, [], a, rfl, .nil, Activation.faultsNext_onTop hi ha hv⟩

theorem combines_onTop2 {g : Value → Value → Except Fault Value} (hi : i.onTop2? = some g) :
    Combines store [i] fun v w => (g v w).mapError Fault.kind := by
  intro a v w rest ha
  show a.Turns store [i] rest ((g v w).mapError Fault.kind)
  cases hv : g v w with
  | ok u => exact Activation.Follows.cons (Activation.isControl_onTop2 hi) (.onTop2 hi ha hv) rfl .nil
  | error fault => exact ⟨[], i, [], a, rfl, .nil, Activation.faultsNext_onTop2 hi ha hv⟩

theorem Maps.append (h : Maps store code f) (h' : Maps store code' f') :
    Maps store (code ++ code') fun v => f v >>= f' := by
  intro a v rest ha
  exact (h a v rest ha).append fun w _ => h' _ w rest rfl

theorem Combines.append (h : Combines store code g) (h' : Maps store code' f) :
    Combines store (code ++ code') fun v w => g v w >>= f := by
  intro a v w rest ha
  exact (h a v w rest ha).append fun u _ => h' _ u rest rfl

theorem Maps.combines (h : Maps store code f) (h' : Combines store code' g) :
    Combines store (code ++ code') fun v w => f w >>= g v := by
  intro a v w rest ha
  exact (h a w (v :: rest) ha).append fun u _ => h' _ v u rest rfl

/-- The second value may be a constant. -/
theorem Combines.constant (h : Combines store code g) (n : Int32) :
    Maps store (.constInt32 n :: code) fun v => g v (.int n.toInt64) := by
  intro a v rest ha
  have hpush : a.Turns store [.constInt32 n] (v :: rest) (.ok (.int n.toInt64)) := by
    show a.Follows store _ { a with stack := _, pc := a.pc + 1 }
    rw [← ha]
    exact .cons rfl .constInt32 rfl .nil
  refine @Activation.Turns.append store a _ _ (v :: rest) rest _ (g v) hpush fun u hu => ?_
  exact h _ v u rest (by cases hu; rfl)

end Instruction

/-- The value where a value points, or the sort of the fault. -/
def Setting.load (E : Setting) (type : TargetType) (v : Value) : Except Fault.Kind Value :=
  (v.asPointer >>= fun p => E.store.heap.load p type).mapError Fault.kind

theorem Instruction.maps_load (E : Setting) (type : TargetType) :
    Maps E.store [.load type] (E.load type) := by
  intro a v rest ha
  unfold Setting.load
  cases hload : v.asPointer >>= fun p => E.store.heap.load p type with
  | ok w =>
    obtain ⟨p, hp, hload⟩ := Except.bind_eq_ok.1 hload
    exact Activation.Follows.cons rfl (.load ha hp hload) rfl .nil
  | error fault =>
    refine ⟨[], .load type, [], a, rfl, .nil, fun hi => ⟨.load type, fault, hi, rfl, ?_, rfl⟩⟩
    have htop : a.mapTop (fun v => do E.store.heap.load (← v.asPointer) type) = .error fault := by
      unfold Activation.mapTop Activation.pop
      rw [ha]
      show ((v.asPointer >>= fun p => E.store.heap.load p type) >>= fun w => _) = _
      rw [hload]
      rfl
    refine Fails.bind_iff.2 (.inr ⟨_, _, Yields.get_iff.2 ⟨rfl, rfl⟩, Fails.bind_iff.2 (.inl ?_)⟩)
    rw [htop]
    rfl

/-! ## Code in its place -/

namespace Setting.Has

open Instruction

variable {E : Setting} {u : Scope} {a b : Activation} {rest : List Value} {v w : Value}
  {before code : List Instruction} {ts : List TargetType} {stored : TargetType}
  {outcome : Except Fault.Kind Value} {f h : Value → Except Fault.Kind Value}
  {g : Value → Value → Except Fault.Kind Value}

/-- Code that computes comes to what it computes. -/
theorem computes_turns (ha : E.Has u a) (hM : (u.append ts (before ++ code)).assembler.method.Extends a.method)
    (hbefore : a.Follows E.store before b)
    (hkept : ∀ p ∈ E.scope.names, b.kept? p.2.slot = a.kept? p.2.slot)
    (hcode : b.Turns E.store code rest outcome) :
    E.Computes a (u.append ts (before ++ code)) rest outcome := by
  cases outcome with
  | ok v => exact ha.computes hM (hbefore.append hcode) hkept rfl
  | error kind =>
    obtain ⟨before', i, after, c, rfl, hfollows, hfaults⟩ := hcode
    have hfollows := hbefore.append hfollows
    have hmethod := Scope.hasCode_append hM
    rw [← ha.pc, ← List.append_assoc] at hmethod
    have hi : c.instruction? = some i := by
      rw [Activation.instruction?, hfollows.same.method, hfollows.pc]
      exact hmethod.right.head
    exact ⟨c, hfollows.runsTo hmethod.left, hfollows.same, hfaults hi⟩

/-- All of the code computes. -/
theorem computes_straight (ha : E.Has u a) (hM : (u.append ts code).assembler.method.Extends a.method)
    (hcode : a.Turns E.store code rest outcome) : E.Computes a (u.append ts code) rest outcome :=
  @computes_turns E u a a rest [] code ts outcome ha hM .nil (fun _ _ => rfl) hcode

/-- Code that computes below a value, which waits in a temporary. -/
theorem computes_under (pre middle last : List Instruction) (ha : E.Has u a)
    (hM : (u.append [stored] (pre ++ (.storeLocal u.nextSlot :: (middle ++
      (.loadLocal u.nextSlot :: last))))).assembler.method.Extends a.method)
    (hnarrow : ∀ v : Value, v.narrow stored = v) (hpre : Maps E.store pre h)
    (hmiddle : Maps E.store middle f) (hlast : Combines E.store last g) (hstack : a.stack = w :: v :: rest) :
    E.Computes a (u.append [stored] (pre ++ (.storeLocal u.nextSlot :: (middle ++
      (.loadLocal u.nextSlot :: last))))) rest (do
        let w ← h w
        let v ← f v
        g v w) := by
  have hslot : a.method.Declares (.local u.nextSlot) stored := Scope.declares_temporary hM ha.addressable
  have hfirst := hpre a w (v :: rest) hstack
  cases hw : h w with
  | error kind =>
    rw [hw] at hfirst
    exact ha.computes_straight hM hfirst.fault_append
  | ok w =>
    rw [hw] at hfirst
    let x : Variable := ⟨.local u.nextSlot, .int⟩
    let b : Activation := { a with
      stack := v :: rest
      pc := a.pc + pre.length + 1 }.keep w x.slot
    have hstored : a.Follows E.store (pre ++ [x.store]) b := by
      have hstore := Activation.follows_store (x := x)
        (a := { a with stack := w :: v :: rest, pc := a.pc + pre.length }) rfl hslot E.store
      rw [hnarrow] at hstore
      exact Activation.Follows.append hfirst hstore
    have hkept : ∀ p ∈ E.scope.names, b.kept? p.2.slot = a.kept? p.2.slot :=
      fun p hp => ha.kept?_temporary hM (List.cons_ne_nil _ _) hp
    have hsecond := hmiddle b v rest rfl
    cases hv : f v with
    | error kind =>
      rw [hv] at hsecond
      have hsplit : pre ++ (.storeLocal u.nextSlot :: (middle ++ (.loadLocal u.nextSlot :: last))) =
          (pre ++ [x.store]) ++ (middle ++ (.loadLocal u.nextSlot :: last)) := by
        simp [x, Variable.store]
      rw [hsplit] at hM ⊢
      exact ha.computes_turns hM hstored hkept hsecond.fault_append
    | ok v =>
      rw [hv] at hsecond
      let c : Activation := { b with stack := v :: rest, pc := b.pc + middle.length }
      have hwaits : c.kept? x.slot = some w := Activation.kept?_keep_self (ha.sized.isSome_kept? hslot)
      have hloaded := (hstored.append hsecond).append (Activation.follows_load hwaits E.store)
      have hsplit : pre ++ (.storeLocal u.nextSlot :: (middle ++ (.loadLocal u.nextSlot :: last))) =
          (pre ++ [x.store] ++ middle ++ [x.load]) ++ last := by
        simp [x, Variable.store, Variable.load]
      rw [hsplit] at hM ⊢
      exact ha.computes_turns hM hloaded hkept (hlast _ v w rest rfl)

end Setting.Has

/-- The expression designates what is at an address. -/
def Expression.isPlace : Expression → Bool
  | .unary _ .dereference _ | .subscript _ _ _ => true
  | _ => false

/-- The value of such an expression is what is there. -/
theorem Emission.Code.of_isPlace {u t : Scope} {e : Expression} {type : CType} (he : e.isPlace = true)
    (h : Code u (.value e type) t) : ∃ v stored, Code u (.address e type) v ∧
      type.target = .ok stored ∧ t = v.append [] [.load stored] := by
  cases h with
  | load haddress htarget => exact ⟨_, _, haddress, htarget, rfl⟩
  | _ => cases he

namespace Setting.Course

open Instruction

variable {E : Setting} {ε : Type} {C : E.Course ε} {u : Scope} {a : Activation} {rest : List Value}
  {outcome : Except ε Value} {code : List Instruction} {f : Value → Except Fault.Kind Value}

/-- What code has come to is replaced by the code behind it. -/
theorem append (h : C.Meets a u rest outcome) (hM : (u.append [] code).assembler.method.Extends a.method)
    (hcode : Maps E.store code f) :
    C.Meets a (u.append [] code) rest (outcome >>= fun v => C.lift (f v)) := by
  refine C.bind h fun v b _ hb hmethod hstack => ?_
  rw [← hmethod] at hM
  exact C.computes (hb.computes_straight hM (hcode b v rest hstack))

variable {e : Expression} {element : CType} {stored : TargetType}

/-- What an address leads to. -/
theorem Settles.load (he : e.isPlace = true) (h : C.Settles (.address e) element outcome)
    (htarget : element.target = .ok stored) :
    C.Settles (.value e) element (outcome >>= fun v => C.lift (E.load stored v)) := by
  constructor
  · intro u t type' hu hcode
    obtain ⟨v, -, haddress, -⟩ := hcode.of_isPlace he
    exact h.typed hu haddress
  · intro u t a hcode ha hM
    obtain ⟨v, stored', haddress, htarget', rfl⟩ := hcode.of_isPlace he
    obtain rfl := Except.ok.inj (htarget.symm.trans htarget')
    have hvM := (Scope.emits_append v [] (by simp [Instruction.isPlain])).extends hM
    exact append (h.meets haddress ha hvM) hM (maps_load E stored)

end Setting.Course

end ManagedC
