import ManagedC.Proofs.Pins.Held
import ManagedC.Proofs.Run.Operands

/-!
# Discipline

Whatever the machine does, the calls in progress account for all pins. Main statements: an
instruction keeps the discipline (`Disciplined.executes`) even if it faults (`Disciplined.fails`), and
the end of a call undoes as many pins as the call held (`Disciplined.release`).
-/

namespace ManagedC

open Activation (pinTarget? unpinOld pinNew repin heldBy)

/-! ## Values -/

theorem Value.pinTarget?_pointer {p q : Pointer} (h : p.place = q.place) :
    pinTarget? (.pointer p) = pinTarget? (.pointer q) := by
  obtain ⟨place, _, _⟩ := p
  obtain ⟨_, _, _⟩ := q
  obtain rfl : place = _ := h
  cases place <;> rfl

namespace Heap

variable {h h' : Heap} {v : Value}

/-- What is loaded from an array points into an array that exists. -/
theorem knows_load {p : Pointer} {type : TargetType} (hc : h.Closed)
    (hl : h.load p type = .ok v) : h.Knows v := by
  rcases load_eq_ok hl with ⟨_, -, _, rfl⟩ | ⟨id, element, elements, pins, -, ho, hv | rfl⟩
  · exact knows_of_none rfl
  · exact hc id element elements pins ho v hv
  · exact knows_of_none rfl

/-- A reference to an element points into an array that exists. -/
theorem knows_elementReference {element : TargetType} {id : Nat} {index : Int64}
    (hv : Activation.elementReference h element id index = .ok v) : h.Knows v := by
  have harray := hv
  obtain ⟨size, -, rfl⟩ := Activation.elementReference_eq_ok hv
  unfold Activation.elementReference at harray
  obtain ⟨⟨element, elements⟩, ha, -⟩ := Except.bind_eq_ok.1 harray
  obtain ⟨pins, ho⟩ := array_eq_ok.1 ha
  intro k hk
  cases hk
  exact Option.isSome_iff_exists.2 ⟨pins, pins?_eq_some.2 ⟨element, elements, ho⟩⟩

/-- A store through a pointer leaves pins alone. -/
theorem keepsPins_store {s : Store} {p : Pointer} {type : TargetType}
    (hs : s.heap.store p type v = .ok h') (hv : s.heap.Knows v) :
    s.KeepsPins { s with heap := h' } := by
  rcases store_eq_ok hs with ⟨id, bytes, bytes', -, -, rfl⟩ |
    ⟨id, element, elements, pins, index, -, ho, rfl⟩
  · exact .of_objects rfl rfl rfl rfl
  · refine .setArray ho fun hc w hw => ?_
    rcases Array.mem_or_eq_of_mem_setIfInBounds hw with hw | rfl
    · exact hc id element elements pins ho w hw
    · exact knows_of_eq hv (Value.pinTarget?_narrow _ _)

end Heap

namespace Instruction

variable {i : Instruction} {h : Heap} {u v w : Value}

/-- What an instruction makes of the topmost value points into what that value points into. -/
theorem knows_onTop {f : Value → Except Fault Value} (hf : i.onTop? = some f) (hw : f v = .ok w)
    (hv : h.Knows v) : h.Knows w := by
  cases i <;> simp only [Instruction.onTop?, reduceCtorEq, Option.some.injEq] at hf <;> subst hf
  case neg | not | convInt32 =>
    obtain ⟨_, _, rfl⟩ := Except.map_eq_ok.1 hw
    exact Heap.knows_of_none rfl
  case convInt64 | convNative =>
    cases v <;> cases hw <;> exact hv
  case convAddress =>
    cases v <;> cases hw
    case pointer => exact Heap.knows_of_eq hv (Value.pinTarget?_pointer rfl)
    all_goals exact Heap.knows_of_none rfl

/-- What an instruction makes of two values points into what one of them points into. -/
theorem knows_onTop2 {f : Value → Value → Except Fault Value} (hf : i.onTop2? = some f)
    (hw : f u v = .ok w) (hu : h.Knows u) (hv : h.Knows v) : h.Knows w := by
  cases i <;> simp only [Instruction.onTop2?, reduceCtorEq, Option.some.injEq] at hf <;> subst hf
  case binary op =>
    unfold BinaryInstr.apply at hw
    split at hw
    · obtain ⟨_, _, rfl⟩ := Except.map_eq_ok.1 hw
      exact Heap.knows_of_none rfl
    · cases hw
      exact Heap.knows_of_eq hu (Value.pinTarget?_pointer rfl)
    · cases hw
      exact Heap.knows_of_eq hv (Value.pinTarget?_pointer rfl)
    · cases hw
      exact Heap.knows_of_eq hu (Value.pinTarget?_pointer rfl)
    · split at hw
      · cases hw
        exact Heap.knows_of_none rfl
      · cases hw
    · cases hw
  case compare op =>
    obtain ⟨_, _, rfl⟩ := Except.map_eq_ok.1 hw
    exact Heap.knows_of_none rfl

end Instruction

namespace Activation

variable {s t : Store}

theorem keepsPins_makeArray (element : TargetType) (length : Value) (s : Store) :
    (makeArray element length).KeepsPins s := by
  unfold makeArray
  refine .bind (.ofExcept _) fun n t _ => ?_
  split
  · exact .bind (.throw _) fun _ _ h => absurd h Yields.not_throw
  refine .bind (.newObject fun element' elements pins heq => ?_) fun _ _ _ => .pure _
  cases heq
  refine ⟨rfl, fun v hv => ?_⟩
  obtain rfl := (Array.mem_replicate.1 hv).2
  exact Value.pinTarget?_zeroOf _

theorem pinTarget?_makeArray {element : TargetType} {length w : Value}
    (h : Yields (makeArray element length) s w t) : pinTarget? w = none := by
  unfold makeArray at h
  obtain ⟨n, _, -, h⟩ := Yields.bind_iff.1 h
  split at h
  · obtain ⟨_, _, h, -⟩ := Yields.bind_iff.1 h
    exact absurd h Yields.not_throw
  obtain ⟨_, _, -, h⟩ := Yields.bind_iff.1 h
  obtain ⟨rfl, -⟩ := Yields.pure_iff.1 h
  rfl

theorem keepsPins_afterHelper (s : Store) (helper : Helper) : s.KeepsPins (s.afterHelper helper) := by
  unfold Store.afterHelper
  split
  · exact .of_objects rfl rfl rfl rfl
  · exact .refl _

/-- A store to a local variable that faults finds no value or no variable, or it cannot do what it
should with the pins of the old and the new value. -/
theorem fails_storeLocal {a : Activation} {slot : UInt16} {f : Fault}
    (hf : Fails (a.execute (.storeLocal slot)) s f t) :
    (a.stack = [] ∧ t = s) ∨ (a.method.locals[slot.toNat]? = none ∧ t = s) ∨
      ∃ (declared : LocalVariable) (v : Value) (rest : List Value),
        a.method.locals[slot.toNat]? = some declared ∧ declared.pinned = true ∧
        a.stack = v :: rest ∧ Fails (repin true (a.locals.getD slot.toNat .null) v) s f t := by
  simp only [Activation.execute, Fails.bind_iff, Access.fails_ofExcept, Access.yields_ofExcept,
    Fails.not_pure, and_false, exists_false, or_false] at hf
  obtain ⟨herror, rfl⟩ | ⟨⟨v, b⟩, u, ⟨hpop, rfl⟩, hf⟩ := hf
  · cases hstack : a.stack with
    | nil => exact .inl ⟨rfl, rfl⟩
    | cons v rest =>
      have hpop : a.pop = .ok (v, { a with stack := rest }) := pop_eq_ok.2 ⟨rest, hstack, rfl⟩
      rw [hpop] at herror
      cases herror
  · obtain ⟨rest, hstack, rfl⟩ := pop_eq_ok.1 hpop
    dsimp only at hf hstack
    cases hd : a.method.locals[slot.toNat]? with
    | none =>
      unfold Activation.storeLocal at hf
      simp only [hd] at hf
      exact .inr (.inl ⟨rfl, (Fails.throw_iff.1 hf).2⟩)
    | some declared =>
      rw [storeLocal_eq (a := { a with stack := rest }) hd] at hf
      obtain hf | ⟨_, _, _, hf⟩ := Fails.bind_iff.1 hf
      · cases hpinned : declared.pinned with
        | false =>
          rw [hpinned] at hf
          exact absurd hf Fails.not_pure
        | true =>
          rw [hpinned] at hf
          exact .inr (.inr ⟨declared, v, rest, rfl, hpinned, hstack, hf⟩)
      · exact absurd hf Fails.not_pure

/-- An instruction that faults leaves pins alone, unless it is a store to a local variable. -/
theorem keepsPins_of_fails {a : Activation} {i : Instruction} {f : Fault}
    (hi : i.isControl = false) (hlocal : ∀ slot, i ≠ .storeLocal slot)
    (hf : Fails (a.execute i) s f t) : s.KeepsPins t := by
  cases i with
  | storeLocal slot => exact absurd rfl (hlocal slot)
  | callHelper helper =>
    have hkeeps : (a.execute (.callHelper helper)).KeepsPins s := by
      simp only [Activation.execute]
      split
      · exact .throw _
      · refine .bind (Access.keepsPins_callHelper _ _ _) fun result u _ => ?_
        split
        · exact .bind (.modify (.of_objects rfl rfl rfl rfl)) fun _ _ _ => .pure _
        · exact .pure _
    exact hkeeps.fails hf
  | newArray element =>
    have hkeeps : (a.execute (.newArray element)).KeepsPins s := by
      simp only [Activation.execute]
      refine .bind (.ofExcept _) fun _ u _ => ?_
      exact .bind (keepsPins_makeArray _ _ _) fun _ _ _ => .pure _
    exact hkeeps.fails hf
  | _ =>
    rw [store_of_fails hi rfl (by rintro _ ⟨⟩) hf]
    exact .refl s

end Activation

/-! ## Instructions -/

namespace Activation.Orderly

variable {h h' : Heap} {a b : Activation}

/-- A call stays orderly while arrays stay. -/
theorem mono (ha : a.Orderly h) (hk : ∀ v, h.Knows v → h'.Knows v) : a.Orderly h' :=
  ⟨ha.size, fun v hv => hk v (ha.locals v hv), fun v hv => hk v (ha.arguments v hv),
    fun v hv => hk v (ha.stack v hv)⟩

/-- Only what is on the stack matters when that is all that changes. -/
theorem withStack (ha : a.Orderly h) {stack : List Value} {pc : Nat} {pending : List Pending}
    (hstack : ∀ v ∈ stack, h.Knows v) :
    ({ a with stack := stack, pc := pc, pending := pending } : Activation).Orderly h :=
  ⟨ha.size, ha.locals, ha.arguments, hstack⟩

end Activation.Orderly

namespace Disciplined

variable {frames : List Activation} {a b : Activation} {s t : Store} {i : Instruction}

/-- An array on which a pin is held exists. -/
theorem isSome_pins (h : Disciplined frames s) {id : Nat} (hpos : 0 < heldBy frames (· == id)) :
    (s.heap.pins? id).isSome = true := by
  obtain ⟨a, ha, hpos⟩ := Activation.exists_of_heldBy_pos hpos
  obtain ⟨slot, declared, v, k, -, -, hv, hk, heq⟩ := Activation.exists_of_held_pos hpos
  obtain rfl : k = id := by simpa using heq
  exact (h.calls a ha).locals v (Array.mem_of_getElem? hv) k hk

/-- What leaves pins alone keeps the discipline. -/
theorem keep (h : Disciplined frames s) (hk : s.KeepsPins t) : Disciplined frames t := by
  refine ⟨fun a ha => (h.calls a ha).mono fun v hv => hk.knows hv, hk.closed h.closed,
    fun id n hn => ?_, ?_⟩
  · rcases hk.fresh id n hn with hn | ⟨hnone, rfl⟩
    · exact h.accounts.pins id n hn
    · rcases Nat.eq_zero_or_pos (heldBy frames (· == id)) with hzero | hpos
      · exact hzero.symm
      · have hsome := h.isSome_pins hpos
        rw [hnone] at hsome
        cases hsome
  · rw [hk.pins, hk.unpins, hk.frameExitUnpins]
    exact h.accounts.counts

/-- A call that goes on with the same variables keeps the discipline. -/
theorem replace (h : Disciplined (a :: frames) s) (hmethod : b.method = a.method)
    (hlocals : b.locals = a.locals) (hb : b.Orderly s.heap) : Disciplined (b :: frames) s := by
  refine ⟨List.forall_mem_cons.2 ⟨hb, fun c hc => h.calls c (List.mem_cons_of_mem _ hc)⟩, h.closed,
    h.accounts.congr fun kind => ?_⟩
  simp only [Activation.heldBy_cons, Activation.held, hmethod, hlocals]

/-- A call that begins holds nothing. -/
theorem enter (h : Disciplined frames s) (ha : a.Orderly s.heap)
    (hnowhere : ∀ v ∈ a.locals, pinTarget? v = none) : Disciplined (a :: frames) s := by
  refine ⟨List.forall_mem_cons.2 ⟨ha, h.calls⟩, h.closed, h.accounts.congr fun kind => ?_⟩
  rw [Activation.heldBy_cons, Activation.held_eq_zero hnowhere, Nat.zero_add]

/-- What a store to a variable does to pins leaves arrays where they are. -/
theorem knows_repin {pinned : Bool} {old new : Value} (h : Yields (repin pinned old new) s () t) :
    (∀ v, s.heap.Knows v → t.heap.Knows v) ∧ (s.heap.Closed → t.heap.Closed) := by
  cases pinned with
  | false =>
    obtain ⟨-, rfl⟩ := Yields.pure_iff.1 h
    exact ⟨fun _ hv => hv, id⟩
  | true =>
    obtain ⟨_, u, hold, hnew⟩ := Yields.bind_iff.1 h
    have hu : (∀ v, s.heap.Knows v → u.heap.Knows v) ∧ (s.heap.Closed → u.heap.Closed) := by
      rcases Activation.yields_unpinOld hold with ⟨-, rfl⟩ | ⟨id, heap, -, hh, rfl⟩
      · exact ⟨fun _ hv => hv, fun hc => hc⟩
      · exact ⟨fun _ => Heap.knows_changePins hh, Heap.closed_changePins hh⟩
    rcases Activation.yields_pinNew hnew with ⟨-, rfl⟩ | ⟨id, heap, -, hh, rfl⟩
    · exact hu
    · exact ⟨fun v hv => Heap.knows_changePins hh (hu.1 v hv),
        fun hc => Heap.closed_changePins hh (hu.2 hc)⟩

/-- A store to a variable keeps the discipline: the array that a pinned variable pointed into loses
the pin, and the one that it points into now gets one. -/
theorem setLocal (h : Disciplined (a :: frames) s) {slot : Nat} {declared : LocalVariable}
    {v : Value} (hdeclared : a.method.locals[slot]? = some declared) (hv : s.heap.Knows v)
    (hpins : Yields (repin declared.pinned (a.locals.getD slot .null) v) s () t) :
    Disciplined ({ a with locals := a.locals.setIfInBounds slot (v.narrow declared.type) } :: frames)
      t := by
  obtain ⟨ha, hframes⟩ := List.forall_mem_cons.1 h.calls
  obtain ⟨hknows, hclosed⟩ := knows_repin hpins
  have hslot : slot < a.locals.size := by
    rw [ha.size]
    exact (Array.getElem?_eq_some_iff.1 hdeclared).1
  have hold : a.locals[slot]? = some (a.locals.getD slot .null) := by
    rw [Array.getElem?_eq_getElem hslot, Array.getD_eq_getD_getElem?, Array.getElem?_eq_getElem hslot]
    rfl
  generalize a.locals.getD slot .null = old at hpins hold
  refine ⟨List.forall_mem_cons.2 ⟨⟨?_, fun w hw => ?_, ?_, ?_⟩, fun b hb => (hframes b hb).mono hknows⟩,
    hclosed h.closed, ?_⟩
  · rw [Array.size_setIfInBounds]
    exact ha.size
  · rcases Array.mem_or_eq_of_mem_setIfInBounds hw with hw | rfl
    · exact hknows w (ha.locals w hw)
    · exact Heap.knows_of_eq (hknows v hv) (Value.pinTarget?_narrow _ _)
  · exact fun w hw => hknows w (ha.arguments w hw)
  · exact fun w hw => hknows w (ha.stack w hw)
  · cases hpinned : declared.pinned with
    | false =>
      rw [hpinned] at hpins
      obtain ⟨-, rfl⟩ := Yields.pure_iff.1 hpins
      refine h.accounts.congr fun kind => ?_
      rw [Activation.heldBy_cons, Activation.heldBy_cons,
        Activation.held_setUnpinned _ hdeclared hpinned hold]
    | true =>
      rw [hpinned] at hpins
      obtain ⟨_, u, hunpin, hpin⟩ := Yields.bind_iff.1 hpins
      -- What is held apart from the old value is what is held apart from the new one.
      let apart : (Nat → Bool) → Nat := fun kind =>
        ({ a with locals := a.locals.setIfInBounds slot .null } : Activation).held kind +
          heldBy frames kind
      have hnull : ∀ kind, Value.null.weight kind = 0 := fun kind => rfl
      have hbefore : s.Accounts fun kind => apart kind + old.weight kind := by
        refine h.accounts.congr fun kind => ?_
        have := Activation.held_setLocal kind .null hdeclared hpinned hold
        rw [hnull] at this
        simp only [apart, Activation.heldBy_cons]
        omega
      refine ((hbefore.unpinOld hunpin).pinNew hpin).congr fun kind => ?_
      have hwithout := Activation.held_setLocal kind .null hdeclared hpinned hold
      have hwith := Activation.held_setLocal kind (v.narrow declared.type) hdeclared
        hpinned hold
      have hweight : (v.narrow declared.type).weight kind = v.weight kind := by
        unfold Value.weight
        rw [Value.pinTarget?_narrow]
      rw [hnull] at hwithout
      rw [hweight] at hwith
      simp only [apart, Activation.heldBy_cons]
      omega

/-- An instruction inside a call keeps the discipline. -/
theorem executes (h : Disciplined (a :: frames) s) (hexec : a.Executes s i b t) :
    Disciplined (b :: frames) t := by
  have ha := h.calls a List.mem_cons_self
  have hpopped : ∀ {v : Value} {rest : List Value}, a.stack = v :: rest →
      s.heap.Knows v ∧ ∀ w ∈ rest, s.heap.Knows w := by
    intro v rest hstack
    exact List.forall_mem_cons.1 (hstack ▸ ha.stack)
  -- Most instructions only change the stack.
  have hstack : ∀ {stack : List Value} {n : Nat}, (∀ w ∈ stack, s.heap.Knows w) →
      Disciplined ({ a with stack := stack, pc := n } :: frames) s :=
    fun hknown => h.replace rfl rfl (ha.withStack hknown)
  have hpushed : ∀ {v : Value} {rest : List Value} {pc : Nat}, s.heap.Knows v →
      (∀ w ∈ rest, s.heap.Knows w) →
      Disciplined ({ a with stack := v :: rest, pc := pc } :: frames) s :=
    fun hv hrest => hstack (List.forall_mem_cons.2 ⟨hv, hrest⟩)
  cases hexec with
  | nop | branch => exact hstack ha.stack
  | constInt32 | constInt64 | loadNull => exact hpushed (Heap.knows_of_none rfl) ha.stack
  | loadArgument hv => exact hpushed (ha.arguments _ (Array.mem_of_getElem? hv)) ha.stack
  | loadLocal hv => exact hpushed (ha.locals _ (Array.mem_of_getElem? hv)) ha.stack
  | storeArgument hs _ =>
    obtain ⟨hv, hrest⟩ := hpopped hs
    refine h.replace rfl rfl ⟨ha.size, ha.locals, fun w hw => ?_, hrest⟩
    rcases Array.mem_or_eq_of_mem_setIfInBounds hw with hw | rfl
    · exact ha.arguments w hw
    · exact Heap.knows_of_eq hv (Value.pinTarget?_narrow _ _)
  | storeLocal hs hd hpins =>
    obtain ⟨hv, hrest⟩ := hpopped hs
    have hset := (hstack (n := a.pc) hrest).setLocal hd hv hpins
    exact hset.replace rfl rfl ((hset.calls _ List.mem_cons_self).withStack
      (hset.calls _ List.mem_cons_self).stack)
  | dup hs =>
    obtain ⟨hv, hrest⟩ := hpopped hs
    exact hpushed hv (List.forall_mem_cons.2 ⟨hv, hrest⟩)
  | pop hs | branchTaken hs | branchPassed hs => exact hstack (hpopped hs).2
  | onTop hf hs hw =>
    obtain ⟨hv, hrest⟩ := hpopped hs
    exact hpushed (Instruction.knows_onTop hf hw hv) hrest
  | onTop2 hf hs hw =>
    obtain ⟨hv, hrest⟩ := hpopped hs
    obtain ⟨hu, hrest⟩ := List.forall_mem_cons.1 hrest
    exact hpushed (Instruction.knows_onTop2 hf hw hu hv) hrest
  | @callHelper helper result u hlen hcall =>
    have hkeeps : s.KeepsPins (u.afterHelper helper) :=
      ((Access.keepsPins_callHelper _ _ _).yields hcall).trans
        (Activation.keepsPins_afterHelper _ _)
    refine (h.keep hkeeps).replace rfl rfl ((ha.mono fun v hv => hkeeps.knows hv).withStack
      fun v hv => ?_)
    rcases List.mem_append.1 hv with hv | hv
    · exact Heap.knows_of_none (Access.pinTarget?_callHelper hcall v hv)
    · exact hkeeps.knows (ha.stack v (List.mem_of_mem_drop hv))
  | newArray hs hw =>
    have hkeeps := (Activation.keepsPins_makeArray _ _ _).yields hw
    refine (h.keep hkeeps).replace rfl rfl ((ha.mono fun v hv => hkeeps.knows hv).withStack
      (List.forall_mem_cons.2 ⟨?_, fun v hv => hkeeps.knows ((hpopped hs).2 v hv)⟩))
    exact Heap.knows_of_none (Activation.pinTarget?_makeArray hw)
  | arrayLength hs => exact hpushed (Heap.knows_of_none rfl) (hpopped hs).2
  | elementAddress hs _ hid hw =>
    obtain ⟨-, hrest⟩ := List.forall_mem_cons.1 (hpopped hs).2
    exact hpushed (Heap.knows_elementReference hw) hrest
  | load hs hp hl => exact hpushed (Heap.knows_load h.closed hl) (hpopped hs).2
  | store hs hp hh =>
    obtain ⟨hv, hrest⟩ := hpopped hs
    obtain ⟨-, hrest⟩ := List.forall_mem_cons.1 hrest
    have hkeeps := Heap.keepsPins_store hh hv
    exact (h.keep hkeeps).replace rfl rfl ((ha.mono fun v hv => hkeeps.knows hv).withStack
      fun v hv => hkeeps.knows (hrest v hv))

/-- A variable always gets its new value, because what it points into and what it is to point into can
be unpinned and pinned. -/
theorem exists_repin (s : Store) (pinned : Bool) {old new : Value} (hold : s.heap.Knows old)
    (hnew : s.heap.Knows new) : ∃ t, Yields (repin pinned old new) s () t := by
  cases pinned with
  | false => exact ⟨s, Yields.pure_iff.2 ⟨rfl, rfl⟩⟩
  | true =>
    obtain ⟨u, hunpin, hknows⟩ : ∃ u, Yields (unpinOld old) s () u ∧ u.heap.Knows new := by
      unfold unpinOld
      cases hid : pinTarget? old with
      | none => exact ⟨s, Yields.pure_iff.2 ⟨rfl, rfl⟩, hnew⟩
      | some id =>
        obtain ⟨heap, hh⟩ := Heap.exists_changePins (hold id hid) (· - 1)
        exact ⟨_, Yields.bind_iff.2 ⟨(), _, Access.yields_update.2 ⟨heap, hh, rfl⟩,
          Yields.bind_iff.2 ⟨(), _, Access.yields_count.2 rfl, Access.yields_log.2 rfl⟩⟩,
          Heap.knows_changePins hh hnew⟩
    obtain ⟨t, hpin⟩ : ∃ t, Yields (pinNew new) u () t := by
      unfold pinNew
      cases hid : pinTarget? new with
      | none => exact ⟨u, Yields.pure_iff.2 ⟨rfl, rfl⟩⟩
      | some id =>
        obtain ⟨heap, hh⟩ := Heap.exists_changePins (hknows id hid) (· + 1)
        exact ⟨_, Yields.bind_iff.2 ⟨(), _, Access.yields_update.2 ⟨heap, hh, rfl⟩,
          Yields.bind_iff.2 ⟨(), _, Access.yields_count.2 rfl, Access.yields_log.2 rfl⟩⟩⟩
    exact ⟨t, Yields.bind_iff.2 ⟨(), u, hunpin, hpin⟩⟩

/-- A store to a local variable faults before it touches pins, if it does. -/
theorem store_of_fails_storeLocal {slot : UInt16} {f : Fault} (ha : a.Orderly s.heap)
    (hf : Fails (a.execute (.storeLocal slot)) s f t) : t = s := by
  rcases Activation.fails_storeLocal hf with ⟨-, heq⟩ | ⟨-, heq⟩ | ⟨declared, v, rest, -, -, hstack, hf⟩
  · exact heq
  · exact heq
  · have hold : s.heap.Knows (a.locals.getD slot.toNat .null) := by
      rw [Array.getD_eq_getD_getElem?]
      cases hv : a.locals[slot.toNat]? with
      | none => exact Heap.knows_of_none rfl
      | some v => exact ha.locals v (Array.mem_of_getElem? hv)
    have hv : s.heap.Knows v := ha.stack v (by rw [hstack]; exact List.mem_cons_self)
    obtain ⟨u, hyields⟩ := exists_repin s true hold hv
    have hfails : repin true (a.locals.getD slot.toNat .null) v s = (.error f, t) := hf
    rw [show repin true (a.locals.getD slot.toNat .null) v s = (.ok (), u) from hyields] at hfails
    cases hfails

/-- An instruction that faults leaves pins alone. -/
theorem keepsPins_of_fails {f : Fault} (ha : a.Orderly s.heap) (hi : i.isControl = false)
    (hf : Fails (a.execute i) s f t) : s.KeepsPins t := by
  cases i with
  | storeLocal slot =>
    rw [store_of_fails_storeLocal ha hf]
    exact .refl s
  | _ => exact Activation.keepsPins_of_fails hi (by rintro _ ⟨⟩) hf

end Disciplined

/-! ## The end of a call -/

namespace Activation

/-- What the end of a call does with one variable: if the variable is pinned, the array that it points
into is unpinned. -/
def releaseSlot (s : Store) (slot : LocalVariable × Value) : Store :=
  match slot.1.pinned, pinTarget? slot.2 with
  | true, some object =>
    match s.heap.unpin object with
    | .ok heap =>
      ({ s with heap := heap }.count fun c =>
        { c with frameExitUnpins := c.frameExitUnpins + 1 }).log .frameExitUnpinned
    | .error _ => s
  | _, _ => s

theorem releasePins_eq (a : Activation) (s : Store) :
    a.releasePins s = (a.method.locals.toList.zip a.locals.toList).foldl releaseSlot s := rfl

theorem close_eq (a : Activation) (s : Store) :
    a.close s = (a.method.locals.toList.zip a.locals.toList).foldl releaseSlot s.closed := rfl

end Activation

/-- Between the two stores arrays were only unpinned, at the ends of calls. -/
structure Store.Released (s t : Store) : Prop where
  knows : ∀ v, s.heap.Knows v → t.heap.Knows v
  /-- What they hold has not changed. -/
  closed : s.heap.Closed → t.heap.Closed
  pins : t.stats.pins = s.stats.pins
  /-- The pins counted that the program undid. -/
  unpins : t.stats.unpins = s.stats.unpins

namespace Store.Released

variable {s t u : Store}

theorem refl (s : Store) : Released s s := ⟨fun _ hv => hv, id, rfl, rfl⟩

theorem trans (h : Released s t) (h' : Released t u) : Released s u :=
  ⟨fun v hv => h'.knows v (h.knows v hv), fun hc => h'.closed (h.closed hc), h'.pins.trans h.pins,
    h'.unpins.trans h.unpins⟩

end Store.Released

namespace Store.Accounts

variable {H : (Nat → Bool) → Nat}

/-- A variable that is let go of holds nothing any more. -/
theorem releaseSlot {s : Store} {slot : LocalVariable × Value}
    (h : s.Accounts fun kind => H kind + if LocalVariable.holds kind slot = true then 1 else 0)
    (hv : s.heap.Knows slot.2) :
    (Activation.releaseSlot s slot).Accounts H ∧ s.Released (Activation.releaseSlot s slot) := by
  obtain ⟨declared, v⟩ := slot
  unfold LocalVariable.holds at h
  unfold Activation.releaseSlot
  dsimp only at h hv ⊢
  cases hpinned : declared.pinned with
  | false => exact ⟨h.congr fun kind => by simp [hpinned], .refl s⟩
  | true =>
    cases hid : pinTarget? v with
    | none => exact ⟨h.congr fun kind => by simp [hid], .refl s⟩
    | some id =>
      obtain ⟨heap, hh⟩ := Heap.exists_changePins (hv id hid) (· - 1)
      have hunpin : s.heap.unpin id = .ok heap := hh
      have hweight : s.Accounts fun kind => H kind + v.weight kind :=
        h.congr fun kind => by simp [Value.weight, hpinned]
      dsimp only
      rw [hunpin]
      exact ⟨hweight.unpin hid hunpin rfl rfl, fun _ => Heap.knows_changePins hh,
        Heap.closed_changePins hh, rfl, rfl⟩

theorem releaseSlots : ∀ {slots : List (LocalVariable × Value)} {s : Store},
    (s.Accounts fun kind => H kind + slots.countP (LocalVariable.holds kind)) →
    (∀ slot ∈ slots, s.heap.Knows slot.2) →
    (slots.foldl Activation.releaseSlot s).Accounts H ∧
      s.Released (slots.foldl Activation.releaseSlot s)
  | [], s, h, _ => ⟨h, .refl s⟩
  | slot :: slots, s, h, hv => by
    obtain ⟨hslot, hslots⟩ := List.forall_mem_cons.1 hv
    have hfirst : s.Accounts fun kind => (H kind + slots.countP (LocalVariable.holds kind)) +
        if LocalVariable.holds kind slot = true then 1 else 0 :=
      h.congr fun kind => by rw [List.countP_cons, Nat.add_assoc]
    obtain ⟨hrest, hreleased⟩ := hfirst.releaseSlot hslot
    obtain ⟨hdone, hreleased'⟩ := releaseSlots hrest fun x hx => hreleased.knows _ (hslots x hx)
    exact ⟨hdone, hreleased.trans hreleased'⟩

end Store.Accounts

namespace Disciplined

variable {frames : List Activation} {a : Activation} {s : Store}

/-- The counter of calls has nothing to do with pins. -/
theorem atDepth (h : Disciplined frames s) (n : Nat) : Disciplined frames { s with depth := n } :=
  h.keep (.of_objects rfl rfl rfl rfl)

/-- The end of a call undoes the pins that the call held. -/
theorem release (h : Disciplined (a :: frames) s) :
    Disciplined frames (a.close s) ∧ s.Released (a.close s) := by
  obtain ⟨ha, hframes⟩ := List.forall_mem_cons.1 h.calls
  rw [Activation.close_eq]
  have hcounted : Disciplined (a :: frames) s.closed := h.atDepth _
  have haccounts : s.closed.Accounts fun kind => heldBy frames kind +
      (a.method.locals.toList.zip a.locals.toList).countP (LocalVariable.holds kind) :=
    hcounted.accounts.congr fun kind => by rw [Activation.heldBy_cons, Nat.add_comm]; rfl
  obtain ⟨haccounts, hreleased⟩ := haccounts.releaseSlots fun slot hslot =>
    ha.locals slot.2 (Array.mem_toList_iff.1 (List.of_mem_zip hslot).2)
  have hreleased : s.Released _ :=
    ⟨hreleased.knows, hreleased.closed, hreleased.pins, hreleased.unpins⟩
  exact ⟨⟨fun b hb => (hframes b hb).mono hreleased.knows, hreleased.closed h.closed, haccounts⟩,
    hreleased⟩

/-- So does the end of several calls, one after the other. -/
theorem releaseAll : ∀ {gone : List Activation} {s : Store}, Disciplined (gone ++ frames) s →
    Disciplined frames (gone.foldl (fun s a => a.close s) s) ∧
      s.Released (gone.foldl (fun s a => a.close s) s)
  | [], s, h => ⟨h, .refl s⟩
  | _ :: _, _, h => by
    obtain ⟨hfirst, hreleased⟩ := release h
    obtain ⟨hdone, hreleased'⟩ := releaseAll hfirst
    exact ⟨hdone, hreleased.trans hreleased'⟩

end Disciplined

end ManagedC
