import ManagedC.Machine.Session
import ManagedC.Proofs.Computation

/-!
# What an instruction does inside a call

Inversion lemmas for `Activation.execute`: what is known of the call and the store before and after
an instruction that stays inside the call and does not fault. `Activation.Same` is what no such
instruction changes.
-/

namespace ManagedC

namespace Access

open Yields

variable {α : Type}

theorem yields_ofExcept {r : Except Fault α} {s t : Store} {a : α} :
    Yields (ofExcept r) s a t ↔ r = .ok a ∧ t = s := by
  constructor
  · intro h
    cases h
    exact ⟨rfl, rfl⟩
  · rintro ⟨rfl, rfl⟩
    rfl

theorem yields_read {f : Heap → Except Fault α} {s t : Store} {a : α} :
    Yields (read f) s a t ↔ f s.heap = .ok a ∧ t = s := by
  unfold read
  rw [bind_iff]
  constructor
  · rintro ⟨_, _, hg, h⟩
    obtain ⟨rfl, rfl⟩ := get_iff.1 hg
    exact yields_ofExcept.1 h
  · intro h
    exact ⟨s, s, get_iff.2 ⟨rfl, rfl⟩, yields_ofExcept.2 h⟩

theorem yields_update {f : Heap → Except Fault Heap} {s t : Store} {u : Unit} :
    Yields (update f) s u t ↔ ∃ heap, f s.heap = .ok heap ∧ t = { s with heap := heap } := by
  unfold update
  rw [bind_iff]
  constructor
  · rintro ⟨heap, _, hr, hm⟩
    obtain ⟨hf, rfl⟩ := yields_read.1 hr
    exact ⟨heap, hf, modify_iff.1 hm⟩
  · rintro ⟨heap, hf, rfl⟩
    exact ⟨heap, s, yields_read.2 ⟨hf, rfl⟩, modify_iff.2 rfl⟩

theorem yields_count {change : Stats → Stats} {s t : Store} {u : Unit} :
    Yields (count change) s u t ↔ t = s.count change := modify_iff

theorem yields_log {e : Event} {s t : Store} {u : Unit} :
    Yields (log e) s u t ↔ t = s.log e := modify_iff

end Access

namespace Activation

/-- Two states of one call: what no instruction inside the call changes is the same. -/
structure Same (a b : Activation) : Prop where
  method : b.method = a.method
  regions : b.regions = a.regions
  /-- The handlers on their way. -/
  pending : b.pending = a.pending
  /-- How many arguments there are. -/
  arguments : b.arguments.size = a.arguments.size
  /-- How many local variables there are. -/
  locals : b.locals.size = a.locals.size

theorem Same.refl (a : Activation) : Same a a := ⟨rfl, rfl, rfl, rfl, rfl⟩

theorem Same.trans {a b c : Activation} (h : Same a b) (h' : Same b c) : Same a c :=
  ⟨h'.1.trans h.1, h'.2.trans h.2, h'.3.trans h.3, h'.4.trans h.4, h'.5.trans h.5⟩

variable {a b : Activation}

theorem pop_eq_ok {p : Value × Activation} : a.pop = .ok p ↔
    ∃ rest, a.stack = p.1 :: rest ∧ p.2 = { a with stack := rest } := by
  obtain ⟨v, b⟩ := p
  unfold pop
  cases h : a.stack with
  | nil => simp [throw, throwThe, MonadExceptOf.throw]
  | cons w rest =>
    constructor
    · intro h'
      cases h'
      exact ⟨rest, rfl, rfl⟩
    · rintro ⟨_, h1, h2⟩
      cases h1
      cases h2
      rfl

theorem mapTop_eq_ok {f : Value → Except Fault Value} : a.mapTop f = .ok b ↔
    ∃ v w rest, a.stack = v :: rest ∧ f v = .ok w ∧ b = { a with stack := w :: rest } := by
  unfold mapTop
  rw [Except.bind_eq_ok]
  constructor
  · rintro ⟨⟨v, a'⟩, hp, h⟩
    obtain ⟨rest, hs, rfl⟩ := pop_eq_ok.1 hp
    obtain ⟨w, hw, h⟩ := Except.bind_eq_ok.1 h
    exact ⟨v, w, rest, hs, hw, (Except.pure_eq_ok.1 h).symm⟩
  · rintro ⟨v, w, rest, hs, hw, rfl⟩
    exact ⟨(v, { a with stack := rest }), pop_eq_ok.2 ⟨rest, hs, rfl⟩,
      Except.bind_eq_ok.2 ⟨w, hw, rfl⟩⟩

theorem mapTop2_eq_ok {f : Value → Value → Except Fault Value} : a.mapTop2 f = .ok b ↔
    ∃ u v w rest, a.stack = v :: u :: rest ∧ f u v = .ok w ∧ b = { a with stack := w :: rest } := by
  unfold mapTop2
  rw [Except.bind_eq_ok]
  constructor
  · rintro ⟨⟨v, a'⟩, hp, h⟩
    obtain ⟨_, hs, rfl⟩ := pop_eq_ok.1 hp
    obtain ⟨⟨u, a''⟩, hp', h⟩ := Except.bind_eq_ok.1 h
    obtain ⟨rest, hs', rfl⟩ := pop_eq_ok.1 hp'
    obtain ⟨w, hw, h⟩ := Except.bind_eq_ok.1 h
    simp only at hs'
    rw [hs'] at hs
    exact ⟨u, v, w, rest, hs, hw, (Except.pure_eq_ok.1 h).symm⟩
  · rintro ⟨u, v, w, rest, hs, hw, rfl⟩
    exact ⟨(v, { a with stack := u :: rest }), pop_eq_ok.2 ⟨_, hs, rfl⟩,
      Except.bind_eq_ok.2 ⟨(u, { a with stack := rest }), pop_eq_ok.2 ⟨rest, rfl, rfl⟩,
        Except.bind_eq_ok.2 ⟨w, hw, rfl⟩⟩⟩

theorem target_eq_ok {label : Label} {pc : Nat} :
    a.target label = .ok pc ↔ a.method.body.labels.offset? label = some pc := by
  unfold target
  cases a.method.body.labels.offset? label with
  | none => simp [throw, throwThe, MonadExceptOf.throw]
  | some o => simp [pure, Except.pure]

theorem popMany?_eq_some {n : Nat} {values : List Value} : a.popMany? n = some (values, b) ↔
    n ≤ a.stack.length ∧ values = (a.stack.take n).reverse ∧
      b = { a with stack := a.stack.drop n } := by
  unfold popMany?
  split
  · simp
    omega
  · constructor
    · intro h
      cases h
      exact ⟨by omega, rfl, rfl⟩
    · rintro ⟨_, rfl, rfl⟩
      rfl

open Yields Access

/-- What a pinned variable does with its old value: the array that it points into is unpinned. -/
def unpinOld (old : Value) : Access Unit :=
  match pinTarget? old with
  | some object => do
    update (·.unpin object)
    count fun s => { s with unpins := s.unpins + 1 }
    log .unpinned
  | none => pure ()

/-- What a pinned variable does with its new value: the array that it points into is pinned. -/
def pinNew (new : Value) : Access Unit :=
  match pinTarget? new with
  | some object => do
    update (·.pin object)
    count fun s => { s with pins := s.pins + 1 }
    log .pinned
  | none => pure ()

/-- What a variable does with pins when a new value is stored over an old one. -/
def repin (pinned : Bool) (old new : Value) : Access Unit :=
  if pinned then unpinOld old >>= fun _ => pinNew new else pure ()

/-- A store to a local variable: the pins first, then the variable. -/
theorem storeLocal_eq {slot : UInt16} {v : Value} {declared : LocalVariable}
    (h : a.method.locals[slot.toNat]? = some declared) : a.storeLocal slot v = (do
      repin declared.pinned (a.locals.getD slot.toNat .null) v
      return { a with
        locals := a.locals.setIfInBounds slot.toNat (v.narrow declared.type) }) := by
  unfold storeLocal repin unpinOld pinNew
  rw [h]
  obtain ⟨name, type, pinned⟩ := declared
  cases pinned with
  | false => simp
  | true =>
    cases pinTarget? (a.locals.getD slot.toNat .null) <;> cases pinTarget? v <;>
      simp [bind_assoc]

/-- A stored value ends up in the variable, whatever it does to pins. -/
theorem yields_storeLocal {slot : UInt16} {v : Value} {s t : Store} :
    Yields (a.storeLocal slot v) s b t ↔ ∃ declared,
      a.method.locals[slot.toNat]? = some declared ∧
      Yields (repin declared.pinned (a.locals.getD slot.toNat .null) v) s () t ∧
      b = { a with locals := a.locals.setIfInBounds slot.toNat (v.narrow declared.type) } := by
  cases hd : a.method.locals[slot.toNat]? with
  | none =>
    unfold storeLocal
    rw [hd]
    simp only [not_throw, false_iff]
    rintro ⟨_, h, _⟩
    cases h
  | some declared =>
    rw [storeLocal_eq hd, bind_iff]
    constructor
    · rintro ⟨_, _, hr, h⟩
      obtain ⟨rfl, rfl⟩ := pure_iff.1 h
      exact ⟨declared, rfl, hr, rfl⟩
    · rintro ⟨_, h, hr, rfl⟩
      cases h
      exact ⟨_, _, hr, pure_iff.2 ⟨rfl, rfl⟩⟩

end Activation

namespace Instruction

/-- Whether the instruction ends a call, begins one or concerns handlers. -/
def isControl : Instruction → Bool
  | .call _ | .ret | .leave _ | .endFinally => true
  | _ => false

/-- What an instruction does to the topmost value, if that is all it does. -/
def onTop? : Instruction → Option (Value → Except Fault Value)
  | .neg => some fun v => (.int <| - ·) <$> v.asInt
  | .not => some fun v => (.int <| ~~~ ·) <$> v.asInt
  | .convInt32 => some fun v => (.int <| TargetType.narrow .int32 ·) <$> v.asInt
  | .convInt64 | .convNative => some Activation.toNative
  | .convAddress => some Activation.toAddress
  | _ => none

/-- What an instruction does to the two topmost values, if that is all it does. -/
def onTop2? : Instruction → Option (Value → Value → Except Fault Value)
  | .binary op => some op.apply
  | .compare op => some fun left right =>
    (fun b => .int (if b then 1 else 0)) <$> op.apply left right
  | _ => none

end Instruction

/-- The store after a service has done its work. -/
def Store.afterHelper (s : Store) (helper : Helper) : Store :=
  match Event.ofHelper? helper with
  | some e => s.log e
  | none => s

namespace Activation

open Yields Access

variable {a b : Activation}

/-- An instruction takes a call in progress and a store to others. -/
inductive Executes (a : Activation) (s : Store) : Instruction → Activation → Store → Prop where
  | nop : Executes a s .nop a.advance s
  | loadArgument {slot : UInt16} {v : Value} :
    a.arguments[slot.toNat]? = some v → Executes a s (.loadArgument slot) (a.push v).advance s
  | storeArgument {slot : UInt16} {v : Value} {rest : List Value} {p : MethodParameter} :
    a.stack = v :: rest → a.method.parameters[slot.toNat]? = some p →
    Executes a s (.storeArgument slot)
      { a with
        stack := rest
        arguments := a.arguments.setIfInBounds slot.toNat (v.narrow p.type) }.advance s
  /-- A local variable is pushed. -/
  | loadLocal {slot : UInt16} {v : Value} :
    a.locals[slot.toNat]? = some v → Executes a s (.loadLocal slot) (a.push v).advance s
  /-- A value is stored in a local variable. -/
  | storeLocal {slot : UInt16} {v : Value} {rest : List Value} {declared : LocalVariable}
      {t : Store} :
    a.stack = v :: rest → a.method.locals[slot.toNat]? = some declared →
    Yields (repin declared.pinned (a.locals.getD slot.toNat .null) v) s () t →
    Executes a s (.storeLocal slot)
      { a with
        stack := rest
        locals := a.locals.setIfInBounds slot.toNat (v.narrow declared.type) }.advance t
  | constInt32 {value : Int32} :
    Executes a s (.constInt32 value) (a.push (.int value.toInt64)).advance s
  | constInt64 {value : Int64} : Executes a s (.constInt64 value) (a.push (.int value)).advance s
  /-- The null reference is pushed. -/
  | loadNull : Executes a s .loadNull (a.push .null).advance s
  /-- The topmost value is pushed once more. -/
  | dup {v : Value} {rest : List Value} :
    a.stack = v :: rest → Executes a s .dup { a with stack := v :: v :: rest }.advance s
  /-- The topmost value is dropped. -/
  | pop {v : Value} {rest : List Value} :
    a.stack = v :: rest → Executes a s .pop { a with stack := rest }.advance s
  /-- The topmost value is replaced. -/
  | onTop {i : Instruction} {f : Value → Except Fault Value} {v w : Value} {rest : List Value} :
    i.onTop? = some f → a.stack = v :: rest → f v = .ok w →
    Executes a s i { a with stack := w :: rest }.advance s
  /-- The two topmost values are combined. -/
  | onTop2 {i : Instruction} {f : Value → Value → Except Fault Value} {u v w : Value}
      {rest : List Value} :
    i.onTop2? = some f → a.stack = v :: u :: rest → f u v = .ok w →
    Executes a s i { a with stack := w :: rest }.advance s
  /-- Control goes to a label. -/
  | branch {target : Label} {pc : Nat} :
    a.method.body.labels.offset? target = some pc → Executes a s (.branch target) (a.jump pc) s
  /-- The condition of a jump holds. -/
  | branchTaken {condition : Bool} {target : Label} {v : Value} {rest : List Value} {pc : Nat} :
    a.stack = v :: rest → v.isTrue = condition →
    a.method.body.labels.offset? target = some pc →
    Executes a s (.branchIf condition target) ({ a with stack := rest }.jump pc) s
  /-- The condition of a jump does not hold. -/
  | branchPassed {condition : Bool} {target : Label} {v : Value} {rest : List Value} :
    a.stack = v :: rest → v.isTrue ≠ condition →
    Executes a s (.branchIf condition target) { a with stack := rest }.advance s
  /-- A service does its work. -/
  | callHelper {helper : Helper} {result : Option Value} {t : Store} :
    helper.arity ≤ a.stack.length →
    Yields (Access.callHelper helper (a.stack.take helper.arity).reverse) s result t →
    Executes a s (.callHelper helper)
      { a with stack := result.toList ++ a.stack.drop helper.arity }.advance (t.afterHelper helper)
  | newArray {element : TargetType} {v w : Value} {rest : List Value} {t : Store} :
    a.stack = v :: rest → Yields (makeArray element v) s w t →
    Executes a s (.newArray element) { a with stack := w :: rest }.advance t
  /-- The length of an array is pushed. -/
  | arrayLength {v : Value} {rest : List Value} {id : Nat} {element : TargetType}
      {elements : Array Value} :
    a.stack = v :: rest → v.asObject = .ok id → s.heap.array id = .ok (element, elements) →
    Executes a s .arrayLength
      { a with stack := .int (Int64.ofNat elements.size) :: rest }.advance s
  /-- A reference to an element is pushed. -/
  | elementAddress {element : TargetType} {u v w : Value} {rest : List Value} {index : Int64}
      {id : Nat} :
    a.stack = v :: u :: rest → v.asInt = .ok index → u.asObject = .ok id →
    elementReference s.heap element id index = .ok w →
    Executes a s (.elementAddress element) { a with stack := w :: rest }.advance s
  | load {type : TargetType} {v w : Value} {p : Pointer} {rest : List Value} :
    a.stack = v :: rest → v.asPointer = .ok p → s.heap.load p type = .ok w →
    Executes a s (.load type) { a with stack := w :: rest }.advance s
  | store {type : TargetType} {u v : Value} {p : Pointer} {rest : List Value} {heap : Heap} :
    a.stack = v :: u :: rest → u.asPointer = .ok p → s.heap.store p type v = .ok heap →
    Executes a s (.store type) { a with stack := rest }.advance { s with heap := heap }

theorem yields_onTop {i : Instruction} {f : Value → Except Fault Value} {s t : Store}
    (hi : i.onTop? = some f) : Yields (a.execute i) s b t ↔
      ∃ v w rest, a.stack = v :: rest ∧ f v = .ok w ∧
        b = { a with stack := w :: rest }.advance ∧ t = s := by
  cases i <;> simp only [Instruction.onTop?, reduceCtorEq, Option.some.injEq] at hi
  all_goals
    subst hi
    simp only [execute, bind_iff, pure_iff, yields_ofExcept, mapTop_eq_ok]
    constructor
    · rintro ⟨_, _, ⟨⟨v, w, rest, hs, hf, rfl⟩, rfl⟩, rfl, rfl⟩
      exact ⟨v, w, rest, hs, hf, rfl, rfl⟩
    · rintro ⟨v, w, rest, hs, hf, rfl, rfl⟩
      exact ⟨_, _, ⟨⟨v, w, rest, hs, hf, rfl⟩, rfl⟩, rfl, rfl⟩

theorem yields_onTop2 {i : Instruction} {f : Value → Value → Except Fault Value} {s t : Store}
    (hi : i.onTop2? = some f) : Yields (a.execute i) s b t ↔
      ∃ u v w rest, a.stack = v :: u :: rest ∧ f u v = .ok w ∧
        b = { a with stack := w :: rest }.advance ∧ t = s := by
  cases i <;> simp only [Instruction.onTop2?, reduceCtorEq, Option.some.injEq] at hi
  all_goals
    subst hi
    simp only [execute, bind_iff, pure_iff, yields_ofExcept, mapTop2_eq_ok]
    constructor
    · rintro ⟨_, _, ⟨⟨u, v, w, rest, hs, hf, rfl⟩, rfl⟩, rfl, rfl⟩
      exact ⟨u, v, w, rest, hs, hf, rfl, rfl⟩
    · rintro ⟨u, v, w, rest, hs, hf, rfl, rfl⟩
      exact ⟨_, _, ⟨⟨u, v, w, rest, hs, hf, rfl⟩, rfl⟩, rfl, rfl⟩

/-- What an instruction does that stays inside the call. -/
theorem executes_of_yields {i : Instruction} {s t : Store} (hi : i.isControl = false)
    (h : Yields (a.execute i) s b t) : Executes a s i b t := by
  cases i with
  | neg | not | convInt32 | convInt64 | convNative | convAddress =>
    obtain ⟨v, w, rest, hs, hf, rfl, rfl⟩ := (yields_onTop rfl).1 h
    exact .onTop rfl hs hf
  | binary | compare =>
    obtain ⟨u, v, w, rest, hs, hf, rfl, rfl⟩ := (yields_onTop2 rfl).1 h
    exact .onTop2 rfl hs hf
  | call | ret | leave | endFinally => cases hi
  | nop =>
    obtain ⟨rfl, rfl⟩ := pure_iff.1 h
    exact .nop
  | constInt32 =>
    obtain ⟨rfl, rfl⟩ := pure_iff.1 h
    exact .constInt32
  | constInt64 =>
    obtain ⟨rfl, rfl⟩ := pure_iff.1 h
    exact .constInt64
  | loadNull =>
    obtain ⟨rfl, rfl⟩ := pure_iff.1 h
    exact .loadNull
  | loadArgument slot =>
    simp only [execute] at h
    split at h
    · rename_i hv
      obtain ⟨rfl, rfl⟩ := pure_iff.1 h
      exact .loadArgument hv
    · exact absurd h not_throw
  | loadLocal slot =>
    simp only [execute] at h
    split at h
    · rename_i hv
      obtain ⟨rfl, rfl⟩ := pure_iff.1 h
      exact .loadLocal hv
    · exact absurd h not_throw
  | storeArgument slot =>
    simp only [execute, bind_iff, yields_ofExcept, pop_eq_ok] at h
    obtain ⟨⟨v, _⟩, _, ⟨⟨rest, hs, rfl⟩, rfl⟩, h⟩ := h
    dsimp only at h
    split at h
    · rename_i p hp
      obtain ⟨rfl, rfl⟩ := pure_iff.1 h
      exact .storeArgument hs hp
    · exact absurd h not_throw
  | storeLocal slot =>
    simp only [execute, bind_iff, pure_iff, yields_ofExcept, pop_eq_ok] at h
    obtain ⟨⟨v, _⟩, _, ⟨⟨rest, hs, rfl⟩, rfl⟩, _, _, hl, rfl, rfl⟩ := h
    obtain ⟨declared, hd, hr, rfl⟩ := yields_storeLocal.1 hl
    exact .storeLocal hs hd hr
  | dup =>
    simp only [execute, bind_iff, pure_iff, yields_ofExcept, pop_eq_ok] at h
    obtain ⟨⟨v, _⟩, _, ⟨⟨rest, hs, rfl⟩, rfl⟩, rfl, rfl⟩ := h
    exact .dup hs
  | pop =>
    simp only [execute, bind_iff, pure_iff, yields_ofExcept, pop_eq_ok] at h
    obtain ⟨⟨v, _⟩, _, ⟨⟨rest, hs, rfl⟩, rfl⟩, rfl, rfl⟩ := h
    exact .pop hs
  | branch target =>
    simp only [execute, bind_iff, pure_iff, yields_ofExcept, target_eq_ok] at h
    obtain ⟨pc, _, ⟨hpc, rfl⟩, rfl, rfl⟩ := h
    exact .branch hpc
  | branchIf condition target =>
    simp only [execute, bind_iff, yields_ofExcept, pop_eq_ok] at h
    obtain ⟨⟨v, _⟩, _, ⟨⟨rest, hs, rfl⟩, rfl⟩, h⟩ := h
    dsimp only at h
    split at h
    · rename_i hv
      simp only [bind_iff, pure_iff, yields_ofExcept, target_eq_ok] at h
      obtain ⟨pc, _, ⟨hpc, rfl⟩, rfl, rfl⟩ := h
      exact .branchTaken hs hv hpc
    · rename_i hv
      obtain ⟨rfl, rfl⟩ := pure_iff.1 h
      exact .branchPassed hs hv
  | callHelper helper =>
    simp only [execute] at h
    split at h
    · exact absurd h not_throw
    · rename_i arguments a' hp
      obtain ⟨hlen, rfl, rfl⟩ := popMany?_eq_some.1 hp
      rw [bind_iff] at h
      obtain ⟨result, u, hcall, h⟩ := h
      have hdone := Executes.callHelper hlen hcall
      unfold Store.afterHelper at hdone
      cases he : Event.ofHelper? helper with
      | some e =>
        rw [he] at h hdone
        rw [bind_iff] at h
        obtain ⟨_, v, hlog, h⟩ := h
        obtain ⟨rfl, rfl⟩ := pure_iff.1 h
        obtain rfl := yields_log.1 hlog
        cases result <;> exact hdone
      | none =>
        rw [he] at h hdone
        obtain ⟨rfl, rfl⟩ := pure_iff.1 h
        cases result <;> exact hdone
  | newArray element =>
    simp only [execute, bind_iff, pure_iff, yields_ofExcept, pop_eq_ok] at h
    obtain ⟨⟨v, _⟩, _, ⟨⟨rest, hs, rfl⟩, rfl⟩, w, _, hw, rfl, rfl⟩ := h
    exact .newArray hs hw
  | arrayLength =>
    simp only [execute, bind_iff, pure_iff, yields_ofExcept, yields_read, pop_eq_ok] at h
    obtain ⟨⟨v, _⟩, _, ⟨⟨rest, hs, rfl⟩, rfl⟩, id, _, ⟨hid, rfl⟩, ⟨element, elements⟩, _, ⟨ha, rfl⟩,
      rfl, rfl⟩ := h
    exact .arrayLength hs hid ha
  | elementAddress element =>
    simp only [execute, bind_iff, pure_iff, yields_ofExcept, yields_read, pop_eq_ok] at h
    obtain ⟨⟨v, _⟩, _, ⟨⟨_, hs, rfl⟩, rfl⟩, index, _, ⟨hi, rfl⟩, ⟨u, _⟩, _, ⟨⟨rest, hs', rfl⟩, rfl⟩,
      id, _, ⟨hid, rfl⟩, w, _, ⟨hw, rfl⟩, rfl, rfl⟩ := h
    exact .elementAddress (by rw [hs, ← hs']) hi hid hw
  | load type =>
    simp only [execute, bind_iff, pure_iff, get_iff, yields_ofExcept, mapTop_eq_ok] at h
    obtain ⟨_, _, ⟨rfl, rfl⟩, _, _, ⟨⟨v, w, rest, hs, hw, rfl⟩, rfl⟩, rfl, rfl⟩ := h
    obtain ⟨p, hp, hw⟩ := Except.bind_eq_ok.1 hw
    exact .load hs hp hw
  | store type =>
    simp only [execute, bind_iff, pure_iff, yields_ofExcept, yields_update, pop_eq_ok] at h
    obtain ⟨⟨v, _⟩, _, ⟨⟨_, hs, rfl⟩, rfl⟩, ⟨u, _⟩, _, ⟨⟨rest, hs', rfl⟩, rfl⟩, p, _, ⟨hp, rfl⟩, _, _,
      ⟨heap, hh, rfl⟩, rfl, rfl⟩ := h
    exact .store (by rw [hs, ← hs']) hp hh

/-- What an instruction can do it does. -/
theorem yields_of_executes {i : Instruction} {s t : Store} (h : Executes a s i b t) :
    Yields (a.execute i) s b t := by
  cases h with
  | nop | constInt32 | constInt64 | loadNull => exact pure_iff.2 ⟨rfl, rfl⟩
  | loadArgument hv | loadLocal hv =>
    simp only [execute, hv]
    exact pure_iff.2 ⟨rfl, rfl⟩
  | storeArgument hs hp =>
    simp only [execute, bind_iff, yields_ofExcept, pop_eq_ok]
    refine ⟨⟨_, _⟩, _, ⟨⟨_, hs, rfl⟩, rfl⟩, ?_⟩
    simp only [hp]
    exact pure_iff.2 ⟨rfl, rfl⟩
  | storeLocal hs hd hr =>
    simp only [execute, bind_iff, pure_iff, yields_ofExcept, pop_eq_ok]
    exact ⟨⟨_, _⟩, _, ⟨⟨_, hs, rfl⟩, rfl⟩, _, _, yields_storeLocal.2 ⟨_, hd, hr, rfl⟩, rfl, rfl⟩
  | dup hs | pop hs =>
    simp only [execute, bind_iff, pure_iff, yields_ofExcept, pop_eq_ok]
    exact ⟨⟨_, _⟩, _, ⟨⟨_, hs, rfl⟩, rfl⟩, rfl, rfl⟩
  | onTop hf hs hw => exact (yields_onTop hf).2 ⟨_, _, _, hs, hw, rfl, rfl⟩
  | onTop2 hf hs hw => exact (yields_onTop2 hf).2 ⟨_, _, _, _, hs, hw, rfl, rfl⟩
  | branch hpc =>
    simp only [execute, bind_iff, pure_iff, yields_ofExcept, target_eq_ok]
    exact ⟨_, _, ⟨hpc, rfl⟩, rfl, rfl⟩
  | branchTaken hs hv hpc =>
    simp only [execute, bind_iff, yields_ofExcept, pop_eq_ok]
    refine ⟨⟨_, _⟩, _, ⟨⟨_, hs, rfl⟩, rfl⟩, ?_⟩
    simp only [hv, if_true, bind_iff, pure_iff, yields_ofExcept, target_eq_ok]
    exact ⟨_, _, ⟨hpc, rfl⟩, rfl, rfl⟩
  | branchPassed hs hv =>
    simp only [execute, bind_iff, yields_ofExcept, pop_eq_ok]
    refine ⟨⟨_, _⟩, _, ⟨⟨_, hs, rfl⟩, rfl⟩, ?_⟩
    simp only [hv, if_false]
    exact pure_iff.2 ⟨rfl, rfl⟩
  | callHelper hlen hcall =>
    rename_i helper result t
    simp only [execute, popMany?_eq_some.2 ⟨hlen, rfl, rfl⟩]
    rw [bind_iff]
    refine ⟨_, _, hcall, ?_⟩
    unfold Store.afterHelper
    cases Event.ofHelper? helper with
    | some e =>
      rw [bind_iff]
      exact ⟨(), _, yields_log.2 rfl, pure_iff.2 ⟨by cases result <;> rfl, rfl⟩⟩
    | none => exact pure_iff.2 ⟨by cases result <;> rfl, rfl⟩
  | newArray hs hw =>
    simp only [execute, bind_iff, pure_iff, yields_ofExcept, pop_eq_ok]
    exact ⟨⟨_, _⟩, _, ⟨⟨_, hs, rfl⟩, rfl⟩, _, _, hw, rfl, rfl⟩
  | arrayLength hs hid ha =>
    simp only [execute, bind_iff, pure_iff, yields_ofExcept, yields_read, pop_eq_ok]
    exact ⟨⟨_, _⟩, _, ⟨⟨_, hs, rfl⟩, rfl⟩, _, _, ⟨hid, rfl⟩, ⟨_, _⟩, _, ⟨ha, rfl⟩, rfl, rfl⟩
  | elementAddress hs hi hid hw =>
    simp only [execute, bind_iff, pure_iff, yields_ofExcept, yields_read, pop_eq_ok]
    exact ⟨⟨_, _⟩, _, ⟨⟨_, hs, rfl⟩, rfl⟩, _, _, ⟨hi, rfl⟩, ⟨_, _⟩, _, ⟨⟨_, rfl, rfl⟩, rfl⟩, _, _,
      ⟨hid, rfl⟩, _, _, ⟨hw, rfl⟩, rfl, rfl⟩
  | load hs hp hw =>
    simp only [execute, bind_iff, pure_iff, get_iff, yields_ofExcept, mapTop_eq_ok]
    exact ⟨_, _, ⟨rfl, rfl⟩, _, _, ⟨⟨_, _, _, hs, Except.bind_eq_ok.2 ⟨_, hp, hw⟩, rfl⟩, rfl⟩, rfl, rfl⟩
  | store hs hp hh =>
    simp only [execute, bind_iff, pure_iff, yields_ofExcept, yields_update, pop_eq_ok]
    exact ⟨⟨_, _⟩, _, ⟨⟨_, hs, rfl⟩, rfl⟩, ⟨_, _⟩, _, ⟨⟨_, rfl, rfl⟩, rfl⟩, _, _, ⟨hp, rfl⟩, (), _,
      ⟨_, hh, rfl⟩, rfl, rfl⟩

/-- An instruction inside a call leaves the call's method, regions and handlers alone. -/
theorem Executes.same {i : Instruction} {s t : Store} (h : Executes a s i b t) : Same a b := by
  cases h with
  | storeArgument | storeLocal => exact ⟨rfl, rfl, rfl, by simp [advance, jump], by simp [advance, jump]⟩
  | _ => exact ⟨rfl, rfl, rfl, rfl, rfl⟩

end Activation

end ManagedC
