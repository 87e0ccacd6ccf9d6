import ManagedC.Proofs.Isolation.Shift
import ManagedC.Proofs.Pins.Discipline
import ManagedC.Proofs.Run.Instruction

/-!
# Instructions in a store that is in use

`Store.after` is a store with its heap, counts and log after those of another one. No instruction
looks at what was there before: it does in such a store what it does in the new one, under other
numbers (`Activation.shifts_execute`). What was there before stays as it was.
-/

namespace ManagedC

/-- The sums of two counts. -/
def Stats.plus (a b : Stats) : Stats where
  argvAllocations := a.argvAllocations + b.argvAllocations
  argvFrees := a.argvFrees + b.argvFrees
  blocksAllocated := a.blocksAllocated + b.blocksAllocated
  blocksFreed := a.blocksFreed + b.blocksFreed
  pins := a.pins + b.pins
  unpins := a.unpins + b.unpins
  frameExitUnpins := a.frameExitUnpins + b.frameExitUnpins

namespace Store

/-- The objects and blocks of `t` after those of `base`, what was counted in both, the log of `base`
with that of `t` appended, and the calls in progress in `t`. -/
def after (base t : Store) : Store :=
  ⟨base.heap.after t.heap, base.stats.plus t.stats, base.events ++ t.events, t.depth⟩

end Store

/-- The computation `y` does in a store after another one what `x` does without it. -/
def Access.Shifts {α β : Type} (base : Store) (f : α → β) (x : Access α) (y : Access β) : Prop :=
  ∀ t, (y (base.after t)).2 = base.after (x t).2 ∧
    ManagedC.Shifts base.heap.room f (x t).1 (y (base.after t)).1

variable {α β γ δ : Type} {base : Store}

namespace Access

namespace Shifts

variable {f : α → β} {g : γ → δ}

theorem pure (a : α) : Shifts base f (Pure.pure a) (Pure.pure (f a)) := fun _ => ⟨rfl, rfl⟩

theorem throw (fault : Fault) : Shifts base f (MonadExcept.throw fault : Access α)
    (MonadExcept.throw (fault.shift base.heap.room)) := fun _ => ⟨rfl, rfl⟩

theorem bind {x : Access α} {y : Access β} {k : α → Access γ} {k' : β → Access δ}
    (hx : Shifts base f x y) (hk : ∀ a, Shifts base g (k a) (k' (f a))) :
    Shifts base g (x >>= k) (y >>= k') := by
  intro t
  obtain ⟨hstore, hresult⟩ := hx t
  rw [bind_apply, bind_apply]
  revert hstore hresult
  rcases x t with ⟨fault | a, u⟩
  · rcases y (base.after t) with ⟨r, u'⟩
    rintro rfl rfl
    exact ⟨rfl, rfl⟩
  · rcases y (base.after t) with ⟨r, u'⟩
    rintro rfl rfl
    exact hk a u

theorem map {x : Access α} {y : Access β} {h : α → γ} {h' : β → δ} (hx : Shifts base f x y)
    (hh : ∀ a, h' (f a) = g (h a)) : Shifts base g (h <$> x) (h' <$> y) := by
  rw [map_eq_pure_bind, map_eq_pure_bind]
  refine hx.bind fun a => ?_
  rw [hh]
  exact .pure _

theorem orThrow {c c' : Prop} [Decidable c] [Decidable c'] {fault fault' : Fault} {x : Access α}
    {y : Access β} (hc : c' ↔ c) (hfault : fault' = fault.shift base.heap.room)
    (hx : Shifts base f x y) :
    Shifts base f (if c then MonadExcept.throw fault >>= fun (_ : Unit) => x else x)
      (if c' then MonadExcept.throw fault' >>= fun (_ : Unit) => y else y) := by
  subst hfault
  by_cases h : c
  · rw [if_pos h, if_pos (hc.2 h)]
    exact fun _ => ⟨rfl, rfl⟩
  · rw [if_neg h, if_neg fun h' => h (hc.1 h')]
    exact hx

theorem ofExcept {x : Except Fault α} {y : Except Fault β} (h : ManagedC.Shifts base.heap.room f x y) :
    Shifts base f (Access.ofExcept x) (Access.ofExcept y) := fun _ => ⟨rfl, h⟩

theorem read {x : Heap → Except Fault α} {y : Heap → Except Fault β}
    (h : ∀ heap, ManagedC.Shifts base.heap.room f (x heap) (y (base.heap.after heap))) :
    Shifts base f (Access.read x) (Access.read y) := fun t => ⟨rfl, h t.heap⟩

theorem update {x y : Heap → Except Fault Heap}
    (h : ∀ heap,
      ManagedC.Shifts base.heap.room base.heap.after (x heap) (y (base.heap.after heap))) :
    Shifts base id (Access.update x) (Access.update y) := by
  refine bind (f := base.heap.after) (read h) fun heap => ?_
  exact fun t => ⟨rfl, rfl⟩

theorem get : Shifts base base.after (MonadState.get : Access Store) MonadState.get :=
  fun _ => ⟨rfl, rfl⟩

theorem count {change : Stats → Stats} (h : ∀ a b : Stats, change (a.plus b) = a.plus (change b)) :
    Shifts base id (Access.count change) (Access.count change) := fun t =>
  ⟨congrArg (fun stats => { base.after t with stats := stats }) (h base.stats t.stats), rfl⟩

theorem log (e : Event) : Shifts base id (Access.log e) (Access.log e) := fun t =>
  ⟨congrArg (fun events => { base.after t with events := events })
    (@Array.append_push _ base.events t.events e).symm, rfl⟩

theorem newObject (o : HeapObject) :
    Shifts base (base.heap.room.objects + ·) (Access.newObject o)
      (Access.newObject (o.shift base.heap.room)) := by
  intro t
  constructor
  · exact congrArg (fun heap => { base.after t with heap := heap })
      (Heap.after_addObject base.heap t.heap o).symm
  · change _ = Except.ok (base.heap.objects.size + t.heap.objects.size)
    change Except.ok (base.heap.objects ++ t.heap.objects.map _).size = _
    rw [Array.size_append, Array.size_map]

theorem newBlock (bytes : List UInt8) :
    Shifts base (base.heap.room.blocks + ·) (Access.newBlock bytes) (Access.newBlock bytes) := by
  intro t
  constructor
  · exact congrArg (fun heap => { base.after t with heap := heap })
      (Heap.after_addBlock base.heap t.heap bytes).symm
  · change Except.ok (base.heap.blocks ++ t.heap.blocks).size = _
    rw [Array.size_append]
    rfl

theorem mapM {s : γ → δ} {h : γ → Access α} {h' : δ → Access β}
    (hh : ∀ c, Shifts base f (h c) (h' (s c))) :
    ∀ cs : List γ, Shifts base (List.map f) (cs.mapM h) ((cs.map s).mapM h')
  | [] => .pure []
  | c :: cs => by
    rw [List.map_cons, List.mapM_cons, List.mapM_cons]
    exact (hh c).bind fun a => (mapM hh cs).bind fun as => .pure _

theorem forM {s : γ → δ} {h : γ → Access Unit} {h' : δ → Access Unit}
    (hh : ∀ c, Shifts base id (h c) (h' (s c))) :
    ∀ cs : List γ, Shifts base id (cs.forM h) ((cs.map s).forM h')
  | [] => .pure ()
  | c :: cs => (hh c).bind fun _ => forM hh cs

end Shifts

/-! ## Services -/

variable (base)

theorem shifts_argsToArgv (args : Value) :
    Shifts base (·.shift base.heap.room) (argsToArgv args) (argsToArgv (args.shift base.heap.room)) := by
  refine .bind (.ofExcept args.shifts_asObject) fun id => ?_
  refine .bind (.read fun heap => Heap.shifts_array base.heap heap id) fun (element, strings) => ?_
  refine .orThrow Iff.rfl rfl ?_
  have htexts : Shifts base (List.map fun text => text) (texts strings.toList)
      (texts (strings.map (·.shift base.heap.room)).toList) := by
    rw [Array.toList_map]
    refine .mapM (fun v => ?_) _
    exact .bind (.ofExcept v.shifts_asObject) fun id =>
      .read fun heap => Heap.shifts_string base.heap heap id
  have hcopy : ∀ text, Shifts base (·.shift base.heap.room) (nativeCopy text) (nativeCopy text) :=
    fun text => .bind (.newBlock _) fun id => .bind (.count fun _ _ => rfl) fun _ => .pure _
  refine htexts.bind fun texts => ?_
  refine .bind (.mapM hcopy texts) fun copies => .bind (.count fun _ _ => rfl) fun _ => ?_
  have hpointers : (copies.map (·.shift base.heap.room) ++ [Value.null]).toArray =
      (copies ++ [Value.null]).toArray.map (·.shift base.heap.room) := by
    simp [Value.shift]
  rw [hpointers]
  exact .bind (.newObject (.array (.pointer .uint8) (copies ++ [Value.null]).toArray 0))
    fun id => .pure _

theorem shifts_freeTarget (v : Value) :
    Shifts base id (freeTarget v) (freeTarget (v.shift base.heap.room)) := by
  rcases v with _ | _ | _ | _ | ⟨block | _, _, _⟩
  case pointer.native =>
    exact .bind (.update fun heap => Heap.shifts_free base.heap heap block) fun _ =>
      .count fun _ _ => rfl
  all_goals exact .pure ()

theorem shifts_freeArgv (argv : Value) :
    Shifts base id (freeArgv argv) (freeArgv (argv.shift base.heap.room)) := by
  refine .bind (.ofExcept argv.shifts_asObject) fun id => ?_
  refine .bind (.read fun heap => Heap.shifts_array base.heap heap id) fun (_, pointers) => ?_
  refine .bind (.count fun _ _ => rfl) fun _ => ?_
  rw [Array.toList_map]
  exact .forM (shifts_freeTarget base) _

theorem shifts_arrayCopy (source destination : Value) (length : Int64) :
    Shifts base id (arrayCopy source destination length)
      (arrayCopy (source.shift base.heap.room) (destination.shift base.heap.room) length) := by
  refine .bind (.ofExcept source.shifts_asObject) fun source => ?_
  refine .bind (.ofExcept destination.shifts_asObject) fun destination => ?_
  refine .orThrow Iff.rfl rfl ?_
  refine .bind (.read fun heap => Heap.shifts_array base.heap heap source) fun (_, items) => ?_
  refine .orThrow (by simp) (by simp [Fault.shift]) ?_
  refine .bind (.read fun heap => Heap.shifts_array base.heap heap destination)
    fun (_, targets) => ?_
  refine .orThrow Iff.rfl rfl (.orThrow (by simp) (by simp [Fault.shift]) ?_)
  refine .update fun heap => ?_
  have hset := Heap.shifts_setElements base.heap heap destination
    (items.extract 0 length.toInt.toNat ++ targets.extract length.toInt.toNat targets.size)
  simpa using hset

theorem shifts_callHelper (helper : Helper) (arguments : List Value) :
    Shifts base (Option.map (·.shift base.heap.room)) (callHelper helper arguments)
      (callHelper helper (arguments.map (·.shift base.heap.room))) := by
  have hcount : Shifts base (Option.map (·.shift base.heap.room))
      (throw (.invalidProgram (.helperArguments helper arguments.length)) : Access (Option Value))
      (throw (.invalidProgram (.helperArguments helper
        (arguments.map (·.shift base.heap.room)).length))) := by
    rw [List.length_map]
    exact .throw _
  cases helper with
  | argsToArgv =>
    rcases arguments with _ | ⟨args, _ | _⟩
    case cons.nil => exact (shifts_argsToArgv base args).map fun _ => rfl
    all_goals exact hcount
  | freeArgv =>
    rcases arguments with _ | ⟨argv, _ | _⟩
    case cons.nil => exact (shifts_freeArgv base argv).bind fun _ => .pure _
    all_goals exact hcount
  | arrayCopy =>
    rcases arguments with _ | ⟨source, _ | ⟨destination, _ | ⟨length, _ | _⟩⟩⟩
    case cons.cons.cons.nil =>
      exact .bind (.ofExcept length.shifts_asInt) fun n =>
        (shifts_arrayCopy base source destination n).bind fun _ => .pure _
    all_goals exact hcount

end Access

/-! ## Calls in progress -/

/-- What comes after handlers, with new numbers. -/
def Completion.shift (d : Shift) : Completion → Completion
  | .jump target => .jump target
  | .fail c => .fail (c.shift d)

/-- The handlers on their way, with new numbers in what comes after them. -/
def Pending.shift (d : Shift) (p : Pending) : Pending :=
  { p with completion := p.completion.shift d }

namespace Activation

/-- The call with new numbers in its values. -/
def shift (d : Shift) (a : Activation) : Activation :=
  { a with
    arguments := a.arguments.map (·.shift d)
    locals := a.locals.map (·.shift d)
    stack := a.stack.map (·.shift d)
    pending := a.pending.map (·.shift d) }

variable {d : Shift} (a : Activation)

theorem method_shift : (a.shift d).method = a.method := rfl

theorem shifts_pop : Shifts d (fun (v, a) => (v.shift d, a.shift d)) a.pop (a.shift d).pop := by
  obtain ⟨method, regions, arguments, locals, _ | ⟨v, stack⟩, pc, pending⟩ := a <;> rfl

theorem shifts_target (label : Label) :
    Shifts d (fun target => target) (a.target label) ((a.shift d).target label) := by
  unfold target
  rw [method_shift]
  cases a.method.body.labels.offset? label <;> rfl

theorem popMany?_shift (n : Nat) : (a.shift d).popMany? n =
    (a.popMany? n).map fun (vs, a) => (vs.map (·.shift d), a.shift d) := by
  unfold popMany? shift
  simp only [List.length_map]
  split
  · rfl
  · simp [List.map_take, List.map_drop]

theorem shifts_mapTop {f f' : Value → Except Fault Value}
    (hf : ∀ v, Shifts d (·.shift d) (f v) (f' (v.shift d))) :
    Shifts d (·.shift d) (a.mapTop f) ((a.shift d).mapTop f') :=
  a.shifts_pop.bind fun (v, _) => (hf v).bind fun _ => .pure _

theorem shifts_mapTop2 {f f' : Value → Value → Except Fault Value}
    (hf : ∀ v w, Shifts d (·.shift d) (f v w) (f' (v.shift d) (w.shift d))) :
    Shifts d (·.shift d) (a.mapTop2 f) ((a.shift d).mapTop2 f') :=
  a.shifts_pop.bind fun (w, a) => a.shifts_pop.bind fun (v, _) => (hf v w).bind fun _ => .pure _

theorem pinTarget?_shift (v : Value) :
    pinTarget? (v.shift d) = (pinTarget? v).map (d.objects + ·) := by
  rcases v with _ | _ | _ | _ | ⟨_ | _, _, _⟩ <;> rfl

theorem shifts_unpinOld (v : Value) :
    Access.Shifts base id (unpinOld v) (unpinOld (v.shift base.heap.room)) := by
  unfold unpinOld
  rw [pinTarget?_shift]
  cases pinTarget? v with
  | none => exact .pure ()
  | some object =>
    refine .bind (.update fun heap => Heap.shifts_changePins base.heap heap object _) fun _ => ?_
    exact .bind (.count fun _ _ => rfl) fun _ => .log _

theorem shifts_pinNew (v : Value) :
    Access.Shifts base id (pinNew v) (pinNew (v.shift base.heap.room)) := by
  unfold pinNew
  rw [pinTarget?_shift]
  cases pinTarget? v with
  | none => exact .pure ()
  | some object =>
    refine .bind (.update fun heap => Heap.shifts_changePins base.heap heap object _) fun _ => ?_
    exact .bind (.count fun _ _ => rfl) fun _ => .log _

/-- A store to a local variable, with new numbers. -/
theorem shift_setLocal (i : Nat) (v : Value) (type : TargetType) :
    { a.shift d with
      locals := (a.shift d).locals.setIfInBounds i ((v.shift d).narrow type) } =
      { a with locals := a.locals.setIfInBounds i (v.narrow type) }.shift d := by
  simp only [shift, Value.narrow_shift, Array.map_setIfInBounds]

/-- A store to an argument, with new numbers. -/
theorem shift_setArgument (i : Nat) (v : Value) (type : TargetType) :
    { a.shift d with
      arguments := (a.shift d).arguments.setIfInBounds i ((v.shift d).narrow type) } =
      { a with arguments := a.arguments.setIfInBounds i (v.narrow type) }.shift d := by
  simp only [shift, Value.narrow_shift, Array.map_setIfInBounds]

theorem shifts_storeLocal (slot : UInt16) (v : Value) :
    Access.Shifts base (·.shift base.heap.room) (a.storeLocal slot v)
      ((a.shift base.heap.room).storeLocal slot (v.shift base.heap.room)) := by
  cases hdeclared : a.method.locals[slot.toNat]? with
  | none =>
    unfold storeLocal
    rw [method_shift, hdeclared]
    exact .throw _
  | some declared =>
    have hold : (a.shift base.heap.room).locals.getD slot.toNat Value.null =
        (a.locals.getD slot.toNat .null).shift base.heap.room :=
      Value.getD_map_shift a.locals slot.toNat
    rw [storeLocal_eq hdeclared, storeLocal_eq (a := a.shift base.heap.room) hdeclared, hold]
    have hrepin : Access.Shifts base id (repin declared.pinned (a.locals.getD slot.toNat .null) v)
        (repin declared.pinned ((a.locals.getD slot.toNat .null).shift base.heap.room)
          (v.shift base.heap.room)) := by
      unfold repin
      split
      · exact (shifts_unpinOld _).bind fun _ => shifts_pinNew v
      · exact .pure ()
    refine hrepin.bind fun _ => ?_
    rw [shift_setLocal]
    exact .pure _

theorem shifts_makeArray (element : TargetType) (length : Value) :
    Access.Shifts base (·.shift base.heap.room) (makeArray element length)
      (makeArray element (length.shift base.heap.room)) := by
  refine .bind (.ofExcept length.shifts_asInt) fun n => .orThrow Iff.rfl rfl ?_
  have hzeros := @Access.Shifts.newObject base
    (.array element (Array.replicate n.toInt.toNat (.zeroOf element)) 0)
  rw [HeapObject.shift, Array.map_replicate, Value.shift_zeroOf] at hzeros
  exact hzeros.bind fun id => .pure _

theorem shifts_elementReference (base h : Heap) (element : TargetType) (id : Nat) (index : Int64) :
    Shifts base.room (·.shift base.room) (elementReference h element id index)
      (elementReference (base.after h) element (base.room.objects + id) index) := by
  refine (Heap.shifts_array base h id).bind fun (_, elements) => ?_
  refine .orThrow (by simp) (by simp [Fault.shift]) ?_
  exact element.shifts_elementSize.bind fun size => .pure _

/-- An instruction does behind other objects and blocks what it does without them. -/
theorem shifts_execute (i : Instruction) :
    Access.Shifts base (·.shift base.heap.room) (a.execute i)
      ((a.shift base.heap.room).execute i) := by
  have htop : ∀ {f f' : Value → Except Fault Value},
      (∀ v, Shifts base.heap.room (·.shift base.heap.room) (f v) (f' (v.shift base.heap.room))) →
      Access.Shifts base (·.shift base.heap.room)
        (do return (← Access.ofExcept (a.mapTop f)).advance)
        (do return (← Access.ofExcept ((a.shift base.heap.room).mapTop f')).advance) := fun hf =>
    .bind (.ofExcept (a.shifts_mapTop hf)) fun _ => .pure _
  have htop2 : ∀ {f f' : Value → Value → Except Fault Value},
      (∀ v w, Shifts base.heap.room (·.shift base.heap.room) (f v w)
        (f' (v.shift base.heap.room) (w.shift base.heap.room))) →
      Access.Shifts base (·.shift base.heap.room)
        (do return (← Access.ofExcept (a.mapTop2 f)).advance)
        (do return (← Access.ofExcept ((a.shift base.heap.room).mapTop2 f')).advance) := fun hf =>
    .bind (.ofExcept (a.shifts_mapTop2 hf)) fun _ => .pure _
  cases i with
  | nop | constInt32 | constInt64 | loadNull | call | ret | leave | endFinally => exact .pure _
  | loadArgument slot =>
    unfold execute
    have hslot : (a.shift base.heap.room).arguments[slot.toNat]? =
        a.arguments[slot.toNat]?.map (·.shift base.heap.room) := Array.getElem?_map
    dsimp only
    rw [hslot]
    cases a.arguments[slot.toNat]? with
    | none => exact .throw _
    | some v => exact .pure (a.push v).advance
  | loadLocal slot =>
    unfold execute
    have hslot : (a.shift base.heap.room).locals[slot.toNat]? =
        a.locals[slot.toNat]?.map (·.shift base.heap.room) := Array.getElem?_map
    dsimp only
    rw [hslot]
    cases a.locals[slot.toNat]? with
    | none => exact .throw _
    | some v => exact .pure (a.push v).advance
  | storeArgument slot =>
    refine .bind (.ofExcept a.shifts_pop) fun (v, a) => ?_
    have hparameter : (a.shift base.heap.room).method.parameters[slot.toNat]? =
        a.method.parameters[slot.toNat]? := rfl
    dsimp only
    rw [hparameter]
    cases a.method.parameters[slot.toNat]? with
    | none => exact .throw _
    | some p =>
      dsimp only
      rw [shift_setArgument]
      exact .pure _
  | storeLocal =>
    exact .bind (.ofExcept a.shifts_pop) fun (v, a) =>
      (a.shifts_storeLocal _ v).bind fun _ => .pure _
  | dup | pop => exact .bind (.ofExcept a.shifts_pop) fun _ => .pure _
  | binary op => exact htop2 op.shifts_apply
  | compare op => exact htop2 fun v w => (op.shifts_apply v w).map fun _ => rfl
  | neg | not | convInt32 => exact htop fun v => v.shifts_asInt.map fun _ => rfl
  | convInt64 | convNative =>
    refine htop fun v => ?_
    cases v <;> rfl
  | convAddress =>
    refine htop fun v => ?_
    cases v <;> rfl
  | branch => exact .bind (.ofExcept (a.shifts_target _)) fun _ => .pure _
  | branchIf =>
    refine .bind (.ofExcept a.shifts_pop) fun (v, a) => ?_
    dsimp only
    rw [Value.isTrue_shift]
    split
    · exact .bind (.ofExcept (a.shifts_target _)) fun _ => .pure _
    · exact .pure _
  | callHelper helper =>
    unfold execute
    dsimp only
    rw [popMany?_shift]
    cases a.popMany? helper.arity with
    | none => exact .throw _
    | some p =>
      obtain ⟨arguments, a⟩ := p
      refine (Access.shifts_callHelper base helper arguments).bind fun result => ?_
      cases Event.ofHelper? helper with
      | none => cases result <;> exact .pure _
      | some event => exact .bind (.log event) fun _ => by cases result <;> exact .pure _
  | newArray =>
    exact .bind (.ofExcept a.shifts_pop) fun (v, _) =>
      (shifts_makeArray _ v).bind fun _ => .pure _
  | arrayLength =>
    refine .bind (.ofExcept a.shifts_pop) fun (v, a) => .bind (.ofExcept v.shifts_asObject)
      fun id => .bind (.read fun heap => Heap.shifts_array base.heap heap id) fun (_,
        elements) => ?_
    dsimp only
    rw [Array.size_map]
    exact .pure _
  | elementAddress =>
    refine .bind (.ofExcept a.shifts_pop) fun (v, a) => .bind (.ofExcept v.shifts_asInt) fun n => ?_
    refine .bind (.ofExcept a.shifts_pop) fun (w, a) => ?_
    refine .bind (.ofExcept w.shifts_asObject) fun id => ?_
    exact .bind (.read fun heap => shifts_elementReference base.heap heap _ id n) fun _ => .pure _
  | load =>
    refine .bind .get fun t => .bind (.ofExcept (a.shifts_mapTop fun v => ?_)) fun _ => .pure _
    exact v.shifts_asPointer.bind fun p => Heap.shifts_load base.heap t.heap p _
  | store =>
    refine .bind (.ofExcept a.shifts_pop) fun (v, a) => ?_
    refine .bind (.ofExcept a.shifts_pop) fun (w, a) => ?_
    refine .bind (.ofExcept w.shifts_asPointer) fun p => ?_
    exact .bind (.update fun heap => Heap.shifts_store base.heap heap p _ v) fun _ => .pure _

/-! ## Beginning and ending a call -/

theorem shifts_enter (m : Method) (arguments : List Value) (depth maxDepth : Nat) :
    Shifts d (·.shift d) (enter m arguments depth maxDepth)
      (enter m (arguments.map (·.shift d)) depth maxDepth) := by
  have hzeros : (m.locals.map fun v => Value.zeroOf v.type).map (·.shift d) =
      m.locals.map fun v => Value.zeroOf v.type := by
    rw [Array.map_map]
    exact congrArg (m.locals.map ·) (funext fun v => Value.shift_zeroOf v.type)
  refine .orThrow (by simp) (by simp [Fault.shift, Malformation.shift]) ?_
  refine .orThrow Iff.rfl rfl ?_
  cases m.body.handlers.mapM m.body.region? with
  | none => exact .throw _
  | some regions =>
    dsimp only
    have hstart : (⟨m, regions, (arguments.map (·.shift d)).toArray,
        m.locals.map fun v => .zeroOf v.type, [], 0, []⟩ : Activation) =
        (⟨m, regions, arguments.toArray, m.locals.map fun v => .zeroOf v.type, [], 0, []⟩ :
          Activation).shift d := by
      simp only [shift, hzeros, List.map_toArray, List.map_nil]
    rw [hstart]
    exact .pure _

/-- One variable lets go of what it pins. -/
theorem releaseSlot_shift (t : Store) (slot : LocalVariable × Value) :
    releaseSlot (base.after t) (slot.1, slot.2.shift base.heap.room) =
      base.after (releaseSlot t slot) := by
  obtain ⟨declared, v⟩ := slot
  unfold releaseSlot
  dsimp only
  rw [pinTarget?_shift]
  cases declared.pinned with
  | false => rfl
  | true =>
    cases pinTarget? v with
    | none => rfl
    | some object =>
      have hunpin : Shifts base.heap.room base.heap.after (t.heap.unpin object)
          ((base.after t).heap.unpin (base.heap.room.objects + object)) :=
        Heap.shifts_changePins base.heap t.heap object (· - 1)
      simp only [Option.map_some]
      revert hunpin
      cases t.heap.unpin object with
      | error fault =>
        intro (hunpin : _ = _)
        rw [hunpin]
      | ok heap =>
        intro (hunpin : _ = _)
        rw [hunpin]
        simp only [Store.after, Store.count, Store.log, Stats.plus, Array.append_push,
          Nat.add_assoc]

/-- A call lets go of its pins behind other objects as it does without them. -/
theorem releasePins_shift (t : Store) :
    (a.shift base.heap.room).releasePins (base.after t) = base.after (a.releasePins t) := by
  have hslots : ∀ (slots : List (LocalVariable × Value)) (t : Store),
      (slots.map fun slot => (slot.1, slot.2.shift base.heap.room)).foldl releaseSlot
        (base.after t) = base.after (slots.foldl releaseSlot t) := by
    intro slots
    induction slots with
    | nil => exact fun t => rfl
    | cons slot slots ih =>
      intro t
      rw [List.map_cons, List.foldl_cons, List.foldl_cons, releaseSlot_shift, ih]
  have hzip : a.method.locals.toList.zip (a.shift base.heap.room).locals.toList =
      (a.method.locals.toList.zip a.locals.toList).map fun slot =>
        (slot.1, slot.2.shift base.heap.room) := by
    change _ = (a.method.locals.toList.zip a.locals.toList).map (Prod.map id _)
    rw [← List.zip_map_right, ← Array.toList_map]
    rfl
  rw [releasePins_eq, releasePins_eq, ← hslots, ← hzip]
  rfl

/-- A call ends behind other objects as it does without them. -/
theorem close_shift (t : Store) :
    (a.shift base.heap.room).close (base.after t) = base.after (a.close t) :=
  a.releasePins_shift t.closed

end Activation

end ManagedC
