import ManagedC.Proofs.Run.Faults

/-!
# What instructions need

An instruction takes values off the stack, pushes others, and names slots and labels of its method.
Main statements: an instruction that finds all of it changes the height of the stack as it should
(`Activation.Executes.height`) and does not fault in a malformed way (`Activation.proper_execute`);
one that neither allocates nor pins leaves the store alone if it faults
(`Activation.store_of_fails`).
-/

namespace ManagedC

namespace Instruction

/-- How many values an instruction that stays inside the call takes off the stack. -/
def takes : Instruction → Nat
  | .storeArgument _ | .storeLocal _ | .dup | .pop | .neg | .not | .branchIf _ _ | .convInt32
  | .convInt64 | .convNative | .convAddress | .newArray _ | .arrayLength | .load _ => 1
  | .binary _ | .compare _ | .elementAddress _ | .store _ => 2
  | .callHelper helper => helper.arity
  | .nop | .loadArgument _ | .loadLocal _ | .constInt32 _ | .constInt64 _ | .loadNull | .branch _
  | .call _ | .ret | .leave _ | .endFinally => 0

/-- How many values an instruction that stays inside the call pushes. -/
def gives : Instruction → Nat
  | .loadArgument _ | .loadLocal _ | .constInt32 _ | .constInt64 _ | .loadNull | .binary _ | .neg
  | .not | .compare _ | .convInt32 | .convInt64 | .convNative | .convAddress | .newArray _
  | .arrayLength | .elementAddress _ | .load _ => 1
  | .dup => 2
  | .callHelper helper => if helper.returnsValue then 1 else 0
  | .nop | .storeArgument _ | .storeLocal _ | .pop | .branch _ | .branchIf _ _ | .call _ | .ret
  | .store _ | .leave _ | .endFinally => 0

end Instruction

/-- The method has the slots and labels that an instruction names. -/
def Method.Provides (m : Method) : Instruction → Prop
  | .loadArgument slot | .storeArgument slot => slot.toNat < m.parameters.length
  | .loadLocal slot | .storeLocal slot => slot.toNat < m.locals.size
  | .branch target | .branchIf _ target => ∃ pc, m.body.labels.offset? target = some pc
  | _ => True

namespace Access

variable {s t : Store}

/-- A service pushes a value exactly if it says so. -/
theorem length_callHelper {helper : Helper} {arguments : List Value} {w : Option Value}
    (h : Yields (callHelper helper arguments) s w t) :
    w.toList.length = if helper.returnsValue then 1 else 0 := by
  unfold callHelper at h
  split at h
  · obtain ⟨v, _, rfl⟩ := Yields.map_iff.1 h
    rfl
  · obtain ⟨_, _, _, h⟩ := Yields.bind_iff.1 h
    obtain ⟨rfl, -⟩ := Yields.pure_iff.1 h
    rfl
  · obtain ⟨_, _, _, h⟩ := Yields.bind_iff.1 h
    obtain ⟨_, _, _, h⟩ := Yields.bind_iff.1 h
    obtain ⟨rfl, -⟩ := Yields.pure_iff.1 h
    rfl
  · exact absurd h Yields.not_throw

end Access

namespace Activation

variable {a b : Activation} {i : Instruction} {s t : Store}

/-- The height of the stack after an instruction. -/
theorem Executes.height (h : Executes a s i b t) :
    i.takes ≤ a.stack.length ∧ b.stack.length = a.stack.length - i.takes + i.gives := by
  cases h with
  | onTop hf hs _ =>
    cases i <;> simp only [Instruction.onTop?, reduceCtorEq] at hf <;>
      simp [hs, advance, jump, Instruction.takes, Instruction.gives]
  | onTop2 hf hs _ =>
    cases i <;> simp only [Instruction.onTop2?, reduceCtorEq] at hf <;>
      simp [hs, advance, jump, Instruction.takes, Instruction.gives]
  | callHelper hlen hcall =>
    refine ⟨hlen, ?_⟩
    have := Access.length_callHelper hcall
    simp only [advance, jump, List.length_append, List.length_drop, Instruction.takes,
      Instruction.gives, this]
    omega
  | storeArgument hs | storeLocal hs | dup hs | pop hs | branchTaken hs | branchPassed hs
  | newArray hs | arrayLength hs | elementAddress hs | load hs | store hs =>
    simp [hs, advance, jump, Instruction.takes, Instruction.gives]
  | _ => simp [advance, jump, push, Instruction.takes, Instruction.gives]

/-- Where control is after an instruction: at the next one, or at the target of a jump. -/
theorem Executes.pc (h : Executes a s i b t) :
    b.pc = a.pc + 1 ∧ (∀ target, i ≠ .branch target) ∨
      ∃ target, i.target? = some target ∧ a.method.body.labels.offset? target = some b.pc := by
  cases h with
  | branch hpc => exact .inr ⟨_, rfl, hpc⟩
  | branchTaken _ _ hpc => exact .inr ⟨_, rfl, hpc⟩
  | onTop hf _ _ => exact .inl ⟨rfl, by rintro _ rfl; cases hf⟩
  | onTop2 hf _ _ => exact .inl ⟨rfl, by rintro _ rfl; cases hf⟩
  | _ => exact .inl ⟨rfl, by simp⟩

/-- An instruction changes no local variable but the one that it stores to. -/
theorem Executes.locals {slot : UInt16} (h : Executes a s i b t) (hi : i ≠ .storeLocal slot) :
    b.locals[slot.toNat]? = a.locals[slot.toNat]? := by
  cases h with
  | @storeLocal other =>
    refine Array.getElem?_setIfInBounds_ne fun heq => hi ?_
    rw [UInt16.toNat_inj.1 heq]
  | _ => rfl

/-! ## Faults -/

theorem exists_cons (h : 1 ≤ a.stack.length) : ∃ v rest, a.stack = v :: rest := by
  cases hs : a.stack with
  | nil => simp [hs] at h
  | cons v rest => exact ⟨v, rest, rfl⟩

theorem exists_below {v : Value} {rest : List Value} (h : 2 ≤ a.stack.length)
    (hs : a.stack = v :: rest) : ∃ w below, rest = w :: below := by
  cases rest with
  | nil => simp [hs] at h
  | cons w below => exact ⟨w, below, rfl⟩

theorem sound_pop (h : 1 ≤ a.stack.length) : Sound a.pop := by
  obtain ⟨v, rest, hs⟩ := exists_cons h
  unfold pop
  rw [hs]
  exact .pure _

theorem sound_mapTop {f : Value → Except Fault Value} (h : 1 ≤ a.stack.length)
    (hf : ∀ v, Sound (f v)) : Sound (a.mapTop f) :=
  (sound_pop h).bind fun p _ => (hf p.1).bind fun _ _ => .pure _

theorem sound_mapTop2 {f : Value → Value → Except Fault Value} (h : 2 ≤ a.stack.length)
    (hf : ∀ u v, Sound (f u v)) : Sound (a.mapTop2 f) := by
  refine (sound_pop (by omega)).bind fun p hp => ?_
  obtain ⟨rest, hs, hp⟩ := pop_eq_ok.1 hp
  refine (sound_pop (by rw [hp]; simp [hs] at h ⊢; omega)).bind fun q _ => ?_
  exact (hf q.1 p.1).bind fun _ _ => .pure _

theorem sound_target {target : Label} (h : ∃ pc, a.method.body.labels.offset? target = some pc) :
    Sound (a.target target) := by
  obtain ⟨pc, hpc⟩ := h
  rw [target_eq_ok.2 hpc]
  exact .pure _

theorem sound_toNative (v : Value) : Sound (toNative v) := by
  cases v with
  | int _ | pointer _ | null => exact .pure _
  | float _ | object _ => exact .throw rfl

theorem sound_onTop {f : Value → Except Fault Value} (hf : i.onTop? = some f) (v : Value) :
    Sound (f v) := by
  cases i <;> simp only [Instruction.onTop?, reduceCtorEq, Option.some.injEq] at hf <;> subst hf
  case neg | not | convInt32 => exact v.sound_asInt.map _
  case convInt64 | convNative => exact sound_toNative v
  case convAddress =>
    unfold toAddress
    split
    · exact .pure _
    · exact .pure _
    · exact .pure _
    · exact .throw rfl

theorem sound_onInts (op : BinaryInstr) (m n : Int64) : Sound (op.onInts m n) := by
  unfold BinaryInstr.onInts
  cases op
  case div | rem =>
    dsimp only
    split
    · exact .throw rfl
    · exact .pure _
  all_goals exact .pure _

theorem sound_unordered (op : CompareInstr) (u v : Value) : Sound (op.unordered u v) := by
  unfold CompareInstr.unordered
  split
  · exact .pure _
  · exact .throw rfl

theorem sound_onTop2 {f : Value → Value → Except Fault Value} (hf : i.onTop2? = some f)
    (u v : Value) : Sound (f u v) := by
  cases i <;> simp only [Instruction.onTop2?, reduceCtorEq, Option.some.injEq] at hf <;> subst hf
  case binary op =>
    unfold BinaryInstr.apply
    split
    · exact (sound_onInts _ _ _).map _
    · exact .pure _
    · exact .pure _
    · exact .pure _
    · split
      · exact .pure _
      · exact .throw rfl
    · exact .throw rfl
  case compare op =>
    refine Sound.map _ ?_
    unfold CompareInstr.apply
    split
    · exact .pure _
    · split
      · exact .pure _
      · exact sound_unordered _ _ _
    · exact sound_unordered _ _ _

theorem proper_repin {pinned : Bool} {old new : Value} :
    Proper (repin pinned old new) s fun _ _ => True := by
  have hpins : ∀ {s : Store} {id : Nat} {change : Nat → Nat},
      Proper (Access.update (·.changePins id change)) s fun _ _ => True := by
    intro s id change
    refine .update (Heap.sound_changePins _ _) fun heap hh => ⟨trivial, ?_⟩
    obtain ⟨element, elements, pins, ho, rfl⟩ := Heap.changePins_eq_ok.1 hh
    exact .of_sizes (by simp) rfl fun hs => hs.changePins hh
  unfold repin unpinOld pinNew
  split
  · refine Proper.bind (P := fun _ _ => True) ?_ fun _ _ _ _ => ?_
    · split
      · exact hpins.bind fun _ _ _ _ => Proper.bind (P := fun _ _ => True) (.count trivial)
          fun _ _ _ _ => .log trivial
      · exact .pure trivial
    · split
      · exact hpins.bind fun _ _ _ _ => Proper.bind (P := fun _ _ => True) (.count trivial)
          fun _ _ _ _ => .log trivial
      · exact .pure trivial
  · exact .pure trivial

theorem proper_storeLocal {slot : UInt16} {v : Value} (h : slot.toNat < a.method.locals.size) :
    Proper (a.storeLocal slot v) s fun _ _ => True := by
  rw [storeLocal_eq (Array.getElem?_eq_getElem h)]
  exact proper_repin.bind fun _ _ _ _ => .pure trivial

theorem proper_makeArray {element : TargetType} {v : Value} :
    Proper (makeArray element v) s fun w t => w.Within t.heap.extent := by
  unfold makeArray
  refine .ofExcept_bind v.sound_asInt fun n _ => ?_
  split
  · exact .throw_bind rfl
  · refine Proper.bind (P := fun id u => id < u.heap.objects.size) (.newObject ?_ ?_)
      fun id u hid _ => .pure hid
    · intro element' elements pins heq w hw
      cases heq
      obtain rfl := (Array.mem_replicate.1 hw).2
      exact Value.within_zeroOf _
    · simp [Heap.addObject]

theorem sound_elementReference {h : Heap} {element : TargetType} {id : Nat} {index : Int64}
    (hid : id < h.objects.size) : Sound (elementReference h element id index) := by
  unfold elementReference
  refine (Heap.sound_array hid).bind fun ⟨_, elements⟩ _ => ?_
  dsimp only
  split
  · exact .throw_bind rfl
  · exact (Heap.sound_elementSize _).bind fun _ _ => .pure _

theorem proper_onTop {f : Value → Except Fault Value} (hi : i.onTop? = some f)
    (h : 1 ≤ a.stack.length) : Proper (a.execute i) s fun _ _ => True := by
  have hx := sound_mapTop h (sound_onTop hi)
  cases i <;> simp only [Instruction.onTop?, reduceCtorEq, Option.some.injEq] at hi
  all_goals
    subst hi
    simp only [execute]
    exact .ofExcept_bind hx fun _ _ => .pure trivial

theorem proper_onTop2 {f : Value → Value → Except Fault Value} (hi : i.onTop2? = some f)
    (h : 2 ≤ a.stack.length) : Proper (a.execute i) s fun _ _ => True := by
  have hx := sound_mapTop2 h (sound_onTop2 hi)
  cases i <;> simp only [Instruction.onTop2?, reduceCtorEq, Option.some.injEq] at hi
  all_goals
    subst hi
    simp only [execute]
    exact .ofExcept_bind hx fun _ _ => .pure trivial

/-- With a value on the stack, what follows a pop works on this value and on the rest. -/
theorem proper_pop_bind {β : Type} {g : Value × Activation → Access β} {P : β → Store → Prop}
    (h : 1 ≤ a.stack.length) (hg : ∀ v rest, a.stack = v :: rest →
      Proper (g (v, { a with stack := rest })) s P) : Proper (Access.ofExcept a.pop >>= g) s P := by
  refine .ofExcept_bind (sound_pop h) ?_
  rintro ⟨v, b⟩ hb
  obtain ⟨rest, hstack, rfl⟩ := pop_eq_ok.1 hb
  exact hg v rest hstack

/-- An instruction that finds what it needs does not fault in a malformed way. -/
theorem proper_of_provides (hi : i.isControl = false) (hlen : i.takes ≤ a.stack.length)
    (hm : a.method.Provides i) (harguments : a.arguments.size = a.method.parameters.length)
    (hlocals : a.locals.size = a.method.locals.size) (ha : a.Within s.heap.extent)
    (hs : s.heap.Valid) : Proper (a.execute i) s fun _ _ => True := by
  cases i
  case neg | not | convInt32 | convInt64 | convNative | convAddress => exact proper_onTop rfl hlen
  case binary | compare => exact proper_onTop2 rfl hlen
  all_goals simp only [execute]
  case call | ret | leave | endFinally => cases hi
  case nop | constInt32 | constInt64 | loadNull => exact .pure trivial
  case loadArgument slot =>
    simp only [Array.getElem?_eq_getElem (harguments ▸ hm : slot.toNat < a.arguments.size)]
    exact .pure trivial
  case loadLocal slot =>
    simp only [Array.getElem?_eq_getElem (hlocals ▸ hm : slot.toNat < a.locals.size)]
    exact .pure trivial
  case storeArgument slot =>
    refine proper_pop_bind hlen fun v rest _ => ?_
    simp only [List.getElem?_eq_getElem (hm : slot.toNat < a.method.parameters.length)]
    exact .pure trivial
  case storeLocal slot =>
    refine proper_pop_bind hlen fun v rest _ => ?_
    exact (proper_storeLocal (a := { a with stack := rest }) hm).bind fun _ _ _ _ => .pure trivial
  case dup | pop => exact proper_pop_bind hlen fun _ _ _ => .pure trivial
  case branch target => exact .ofExcept_bind (sound_target hm) fun _ _ => .pure trivial
  case branchIf condition target =>
    refine proper_pop_bind hlen fun v rest _ => ?_
    dsimp only
    split
    · have hpc := sound_target (a := { a with stack := rest }) hm
      exact .ofExcept_bind hpc fun _ _ => .pure trivial
    · exact .pure trivial
  case callHelper helper =>
    have hlen : helper.arity ≤ a.stack.length := hlen
    rw [popMany?_eq_some.2 ⟨hlen, rfl, rfl⟩]
    dsimp only
    refine (Access.proper_callHelper (by simp [hlen]) (fun v hv => ?_) hs).bind
      fun w t _ _ => ?_
    · exact ha.stack v (List.mem_of_mem_take (List.mem_reverse.1 hv))
    · split
      · exact Proper.bind (P := fun _ _ => True) (.log trivial) fun _ _ _ _ => .pure trivial
      · exact .pure trivial
  case newArray element =>
    refine proper_pop_bind hlen fun v rest _ => ?_
    exact proper_makeArray.bind fun _ _ _ _ => .pure trivial
  case arrayLength =>
    refine proper_pop_bind hlen fun v rest hstack => ?_
    have hv := ha.stack v (by rw [hstack]; exact List.mem_cons_self)
    refine .ofExcept_bind v.sound_asObject fun id hid => ?_
    exact .read_bind (Heap.sound_array (hv.asObject hid)) fun _ _ => .pure trivial
  case elementAddress element =>
    refine proper_pop_bind (Nat.le_of_lt hlen) fun v rest hstack => ?_
    refine .ofExcept_bind v.sound_asInt fun index _ => ?_
    obtain ⟨w, below, rfl⟩ := exists_below hlen hstack
    have hw := ha.stack w (by rw [hstack]; simp)
    refine proper_pop_bind (a := { a with stack := w :: below }) (by simp) ?_
    rintro _ _ ⟨⟩
    refine .ofExcept_bind w.sound_asObject fun id hid => ?_
    exact .read_bind (sound_elementReference (hw.asObject hid)) fun _ _ => .pure trivial
  case load type =>
    obtain ⟨v, rest, hstack⟩ := exists_cons (a := a) hlen
    have hv := ha.stack v (by rw [hstack]; exact List.mem_cons_self)
    have hload : Sound (a.mapTop fun v => do s.heap.load (← v.asPointer) type) := by
      unfold mapTop
      refine (sound_pop hlen).bind fun p hp => ?_
      obtain ⟨w, b⟩ := p
      obtain ⟨_, hs', -⟩ := pop_eq_ok.1 hp
      obtain ⟨rfl, -⟩ := List.cons.inj (hstack.symm.trans hs')
      refine Sound.bind (v.sound_asPointer.bind fun p hp => ?_) fun _ _ => .pure _
      exact Heap.sound_load (hv.asPointer hp)
    refine Proper.bind (P := fun u t => u = s ∧ t = s) (.get ⟨rfl, rfl⟩) fun _ t ht _ => ?_
    obtain ⟨rfl, rfl⟩ := ht
    exact .ofExcept_bind hload fun _ _ => .pure trivial
  case store type =>
    refine proper_pop_bind (Nat.le_of_lt hlen) fun v rest hstack => ?_
    obtain ⟨w, below, rfl⟩ := exists_below hlen hstack
    have hv := ha.stack v (by rw [hstack]; simp)
    have hw := ha.stack w (by rw [hstack]; simp)
    refine proper_pop_bind (a := { a with stack := w :: below }) (by simp) ?_
    rintro _ _ ⟨⟩
    refine .ofExcept_bind w.sound_asPointer fun q hq => ?_
    have hplaces := hw.asPointer hq
    refine Proper.bind (P := fun _ _ => True) (.update (Heap.sound_store hplaces) fun heap hh => ?_)
      fun _ _ _ _ => .pure trivial
    have hsizes := Heap.changes_store hplaces hh
    exact ⟨trivial, .of_sizes hsizes.objects hsizes.blocks fun hs => hs.store hplaces hv hh⟩

/-- In a larger heap more of what a call refers to exists. -/
theorem Within.extent {h h' : Heap} (ha : a.Within h.extent)
    (hobjects : h.objects.size ≤ h'.objects.size) (hblocks : h.blocks.size ≤ h'.blocks.size) :
    a.Within h'.extent :=
  ⟨fun v hv => (ha.arguments v hv).extent hobjects hblocks,
    fun v hv => (ha.locals v hv).extent hobjects hblocks,
    fun v hv => (ha.stack v hv).extent hobjects hblocks⟩

/-- An instruction that finds what it needs does not fault in a malformed way, and afterwards the
call refers only to what exists. -/
theorem proper_execute (hi : i.isControl = false) (hlen : i.takes ≤ a.stack.length)
    (hm : a.method.Provides i) (harguments : a.arguments.size = a.method.parameters.length)
    (hlocals : a.locals.size = a.method.locals.size) (ha : a.Within s.heap.extent)
    (hs : s.heap.Valid) : Proper (a.execute i) s fun b t => b.Within t.heap.extent := by
  have hproper := proper_of_provides hi hlen hm harguments hlocals ha hs
  refine ⟨fun b t hy => ?_, hproper.fails⟩
  have hkeeps := (hproper.yields b t hy).2
  refine ⟨?_, hkeeps⟩
  have hb := executes_of_yields hi hy
  by_cases hallocates : i.allocates = false
  · exact (hb.within hallocates ha hs).1.extent hkeeps.objects hkeeps.blocks
  · have ha' := ha.extent hkeeps.objects hkeeps.blocks
    cases i with
    | callHelper helper =>
      cases hb with
      | onTop hf | onTop2 hf => cases hf
      | callHelper hlen hcall =>
        rename_i result u
        have hwithin : ∀ v ∈ result.toList, v.Within u.heap.extent :=
          ((Access.proper_callHelper (by simp [hlen])
            (fun v hv => ha.stack v (List.mem_of_mem_take (List.mem_reverse.1 hv))) hs).yields
              _ _ hcall).1
        have hheap : (u.afterHelper helper).heap = u.heap := by
          unfold Store.afterHelper
          split <;> rfl
        refine ⟨ha'.arguments, ha'.locals, fun v hv => ?_⟩
        rcases List.mem_append.1 hv with hv | hv
        · rw [hheap]
          exact hwithin v hv
        · exact ha'.stack v (List.mem_of_mem_drop hv)
    | newArray element =>
      cases hb with
      | onTop hf | onTop2 hf => cases hf
      | newArray hstack hw =>
        have hw := (proper_makeArray.yields _ _ hw).1
        refine ⟨ha'.arguments, ha'.locals, List.forall_mem_cons.2 ⟨hw, fun v hv => ?_⟩⟩
        exact ha'.stack v (by rw [hstack]; exact List.mem_cons_of_mem _ hv)
    | _ => exact absurd rfl hallocates

/-! ## Faults that leave no trace -/

/-- An instruction that neither allocates nor pins leaves the store alone if it faults. -/
theorem store_of_fails {f : Fault} (hi : i.isControl = false) (hallocates : i.allocates = false)
    (hpins : ∀ slot, i = .storeLocal slot → ∀ v ∈ a.method.locals, v.pinned = false)
    (h : Fails (a.execute i) s f t) : t = s := by
  cases i with
  | call | ret | leave | endFinally => cases hi
  | callHelper | newArray => cases hallocates
  | nop | constInt32 | constInt64 | loadNull => exact absurd h Fails.not_pure
  | loadArgument slot | loadLocal slot =>
    simp only [execute] at h
    split at h
    · exact absurd h Fails.not_pure
    · exact (Fails.throw_iff.1 h).2
  | storeArgument slot =>
    simp only [execute, Fails.bind_iff, Access.fails_ofExcept, Access.yields_ofExcept] at h
    obtain ⟨-, rfl⟩ | ⟨_, _, ⟨-, rfl⟩, h⟩ := h
    · rfl
    · split at h
      · exact absurd h Fails.not_pure
      · exact (Fails.throw_iff.1 h).2
  | storeLocal slot =>
    simp only [execute, Fails.bind_iff, Access.fails_ofExcept, Access.yields_ofExcept,
      Fails.not_pure, and_false, exists_false, or_false, pop_eq_ok] at h
    obtain ⟨-, rfl⟩ | ⟨⟨v, _⟩, _, ⟨⟨rest, -, rfl⟩, rfl⟩, h⟩ := h
    · rfl
    · dsimp only at h
      cases hd : a.method.locals[slot.toNat]? with
      | none =>
        unfold storeLocal at h
        simp only [hd] at h
        exact (Fails.throw_iff.1 h).2
      | some declared =>
        rw [storeLocal_eq (a := { a with stack := rest }) hd,
          hpins slot rfl _ (Array.mem_of_getElem? hd)] at h
        obtain h | ⟨_, _, _, h⟩ := Fails.bind_iff.1 h
        · exact absurd h Fails.not_pure
        · exact absurd h Fails.not_pure
  | branchIf condition target =>
    simp only [execute, Fails.bind_iff, Access.fails_ofExcept, Access.yields_ofExcept] at h
    obtain ⟨-, rfl⟩ | ⟨_, _, ⟨-, rfl⟩, h⟩ := h
    · rfl
    · split at h
      · simp only [Fails.bind_iff, Access.fails_ofExcept, Fails.not_pure, and_false, exists_false,
          or_false] at h
        exact h.2
      · exact absurd h Fails.not_pure
  | _ =>
    simp only [execute, Fails.bind_iff, Access.fails_ofExcept, Access.yields_ofExcept,
      Access.fails_read, Access.yields_read, Access.fails_update, Fails.not_get, Yields.get_iff,
      Fails.not_pure, and_false, exists_false, or_false] at h
    grind

end Activation

end ManagedC
