import ManagedC.Proofs.Run.Instruction

/-!
# What values refer to

A `Reach` is a collection of managed objects and places that pointers lead to. Values stay within a
reach when instructions work on them, because a machine without made-up addresses gets at a thing
only through a reference to it. Main statements: what is within a reach stays there when an
instruction is executed that allocates nothing (`Activation.Executes.within`), and outside the reach
the heap is as it was (`Activation.Executes.changes`).
-/

namespace ManagedC

/-- What values may refer to. -/
structure Reach where
  /-- The objects that references refer to. -/
  objects : Nat → Prop
  /-- The places that pointers lead to. -/
  places : Place → Prop
  /-- A reference to an array leads to its elements. -/
  closed : ∀ id, objects id → places (.array id)

variable {r : Reach}

namespace Value

/-- The value refers to what is within reach only. -/
def Within (r : Reach) : Value → Prop
  | .object id => r.objects id
  | .pointer p => r.places p.place
  | _ => True

theorem Within.narrow {type : TargetType} {v : Value} (h : v.Within r) :
    (v.narrow type).Within r := by
  cases v <;> exact h

theorem within_zeroOf (type : TargetType) : (zeroOf type).Within r := by
  unfold zeroOf
  split
  · trivial
  · split <;> trivial

end Value

/-- The elements of the arrays within reach refer to what is within reach only. -/
def Heap.Within (r : Reach) (h : Heap) : Prop :=
  ∀ (id : Nat) element elements pins, r.places (.array id) →
    h.objects[id]? = some (.array element elements pins) → ∀ v ∈ elements, v.Within r

/-- All values of a call refer to what is within reach only. -/
structure Activation.Within (r : Reach) (a : Activation) : Prop where
  arguments : ∀ v ∈ a.arguments, v.Within r
  locals : ∀ v ∈ a.locals, v.Within r
  stack : ∀ v ∈ a.stack, v.Within r

/-! ## The heap -/

namespace Heap

variable {h h' : Heap}

theorem object_eq_ok {id : Nat} {o : HeapObject} :
    h.object id = .ok o ↔ h.objects[id]? = some o := by
  unfold object
  cases h.objects[id]? with
  | none => simp [throw, throwThe, MonadExceptOf.throw]
  | some o' => simp [pure, Except.pure]

theorem array_eq_ok {id : Nat} {element : TargetType} {elements : Array Value} :
    h.array id = .ok (element, elements) ↔
      ∃ pins, h.objects[id]? = some (.array element elements pins) := by
  unfold array
  rw [Except.bind_eq_ok]
  constructor
  · rintro ⟨o, ho, h⟩
    cases o with
    | string text => cases h
    | array element' elements' pins =>
      cases h
      exact ⟨pins, object_eq_ok.1 ho⟩
  · rintro ⟨pins, ho⟩
    exact ⟨_, object_eq_ok.2 ho, rfl⟩

theorem setElements_eq_ok {id : Nat} {elements : Array Value} :
    h.setElements id elements = .ok h' ↔ ∃ element old pins,
      h.objects[id]? = some (.array element old pins) ∧
      h' = { h with objects := h.objects.setIfInBounds id (.array element elements pins) } := by
  unfold setElements
  rw [Except.bind_eq_ok]
  constructor
  · rintro ⟨o, ho, h⟩
    cases o with
    | string text => cases h
    | array element old pins =>
      cases h
      exact ⟨element, old, pins, object_eq_ok.1 ho, rfl⟩
  · rintro ⟨element, old, pins, ho, rfl⟩
    exact ⟨_, object_eq_ok.2 ho, rfl⟩

theorem changePins_eq_ok {id : Nat} {change : Nat → Nat} :
    h.changePins id change = .ok h' ↔ ∃ element elements pins,
      h.objects[id]? = some (.array element elements pins) ∧
      h' = { h with
        objects := h.objects.setIfInBounds id (.array element elements (change pins)) } := by
  unfold changePins
  cases ho : h.objects[id]? with
  | none => simp [throw, throwThe, MonadExceptOf.throw]
  | some o =>
    cases o with
    | string text => simp [throw, throwThe, MonadExceptOf.throw]
    | array element elements pins =>
      constructor
      · intro h
        cases h
        exact ⟨element, elements, pins, rfl, rfl⟩
      · rintro ⟨_, _, _, ho, rfl⟩
        cases ho
        rfl

theorem block_eq_ok {id : Nat} {bytes : List UInt8} :
    h.block id = .ok bytes ↔ h.blocks[id]? = some (.live bytes) := by
  unfold block
  cases h.blocks[id]? with
  | none => simp [throw, throwThe, MonadExceptOf.throw]
  | some b => cases b <;> simp [throw, throwThe, MonadExceptOf.throw, pure, Except.pure]

theorem free_eq_ok {id : Nat} : h.free id = .ok h' ↔ ∃ bytes,
    h.blocks[id]? = some (.live bytes) ∧
      h' = { h with blocks := h.blocks.setIfInBounds id .freed } := by
  unfold free
  cases h.blocks[id]? with
  | none => simp [throw, throwThe, MonadExceptOf.throw]
  | some b => cases b <;> simp [throw, throwThe, MonadExceptOf.throw, pure, Except.pure, eq_comm]

/-- Strings that are added one after the other stand at the end. -/
theorem foldl_addObject (texts : List String) (h : Heap) :
    texts.foldl (fun h text => h.addObject (.string text)) h =
      { h with objects := h.objects ++ (texts.map HeapObject.string).toArray } := by
  induction texts generalizing h with
  | nil => simp
  | cons text texts ih =>
    rw [List.foldl_cons, ih]
    simp [addObject]

/-- Only the values in arrays are loaded from arrays, and only integers from native memory. -/
theorem load_eq_ok {p : Pointer} {type : TargetType} {v : Value} (hl : h.load p type = .ok v) :
    (∃ n, p.place = .native n ∧ ∃ k, v = .int k) ∨
      ∃ id element elements pins, p.place = .array id ∧
        h.objects[id]? = some (.array element elements pins) ∧ (v ∈ elements ∨ v = .null) := by
  unfold load at hl
  obtain ⟨_, _, hl⟩ := Except.bind_eq_ok.1 hl
  cases hp : p.place with
  | array id =>
    rw [hp] at hl
    obtain ⟨index, _, hl⟩ := Except.bind_eq_ok.1 hl
    obtain ⟨⟨element, elements⟩, ha, hl⟩ := Except.bind_eq_ok.1 hl
    obtain rfl := Except.pure_eq_ok.1 hl
    obtain ⟨pins, ha⟩ := array_eq_ok.1 ha
    refine .inr ⟨id, element, elements, pins, rfl, ha, ?_⟩
    show elements.getD index .null ∈ elements ∨ elements.getD index .null = .null
    unfold Array.getD
    split
    · exact .inl (Array.getElem_mem _)
    · exact .inr rfl
  | native id =>
    rw [hp] at hl
    refine .inl ⟨id, rfl, ?_⟩
    dsimp only at hl
    split at hl
    · obtain ⟨_, h, _⟩ := Except.bind_eq_ok.1 hl
      cases h
    · obtain ⟨_, _, hl⟩ := Except.bind_eq_ok.1 hl
      obtain ⟨_, _, hl⟩ := Except.bind_eq_ok.1 hl
      obtain ⟨_, _, hl⟩ := Except.bind_eq_ok.1 hl
      exact ⟨_, (Except.pure_eq_ok.1 hl).symm⟩

/-- A store replaces an element of an array, or bytes of a block. -/
theorem store_eq_ok {p : Pointer} {type : TargetType} {v : Value}
    (hs : h.store p type v = .ok h') :
    (∃ id bytes bytes', p.place = .native id ∧ h.blocks[id]? = some (.live bytes) ∧
      h' = h.setBytes id bytes') ∨
      ∃ id element elements pins index, p.place = .array id ∧
        h.objects[id]? = some (.array element elements pins) ∧
        h' = { h with
          objects := h.objects.setIfInBounds id
            (.array element (elements.setIfInBounds index (v.narrow element)) pins) } := by
  unfold store at hs
  obtain ⟨_, _, hs⟩ := Except.bind_eq_ok.1 hs
  cases hp : p.place with
  | array id =>
    rw [hp] at hs
    obtain ⟨index, _, hs⟩ := Except.bind_eq_ok.1 hs
    obtain ⟨⟨element, elements⟩, ha, hs⟩ := Except.bind_eq_ok.1 hs
    obtain ⟨pins, ha⟩ := array_eq_ok.1 ha
    obtain ⟨element', old, pins', ho, rfl⟩ := setElements_eq_ok.1 hs
    rw [ha] at ho
    cases ho
    exact .inr ⟨id, element, elements, pins, index, rfl, ha, rfl⟩
  | native id =>
    rw [hp] at hs
    dsimp only at hs
    split at hs
    · obtain ⟨_, h, _⟩ := Except.bind_eq_ok.1 hs
      cases h
    · obtain ⟨_, _, hs⟩ := Except.bind_eq_ok.1 hs
      obtain ⟨_, _, hs⟩ := Except.bind_eq_ok.1 hs
      obtain ⟨bytes, hb, hs⟩ := Except.bind_eq_ok.1 hs
      obtain ⟨_, _, hs⟩ := Except.bind_eq_ok.1 hs
      obtain rfl := Except.pure_eq_ok.1 hs
      exact .inl ⟨id, bytes, _, rfl, block_eq_ok.1 hb, rfl⟩

/-- Two heaps between which nothing was allocated, freed, pinned or unpinned, and where only arrays
within reach may have other elements. -/
structure Changes (r : Reach) (h h' : Heap) : Prop where
  /-- There are as many objects. -/
  objects : h'.objects.size = h.objects.size
  /-- There are as many blocks. -/
  blocks : h'.blocks.size = h.blocks.size
  /-- Objects out of reach are the same. -/
  outside : ∀ id : Nat, ¬ r.places (.array id) → h'.objects[id]? = h.objects[id]?
  strings : ∀ (id : Nat) (text : String), h.objects[id]? = some (.string text) →
    h'.objects[id]? = some (.string text)
  /-- Arrays keep their type, their size and their pins. -/
  arrays : ∀ (id : Nat) element elements pins, h.objects[id]? = some (.array element elements pins) →
    ∃ elements', h'.objects[id]? = some (.array element elements' pins) ∧
      elements'.size = elements.size
  /-- Blocks in use stay in use, and the others do not come back. -/
  live : ∀ id : Nat, (h'.blocks[id]?).map Block.isLive = (h.blocks[id]?).map Block.isLive

namespace Changes

theorem refl (r : Reach) (h : Heap) : Changes r h h :=
  ⟨rfl, rfl, fun _ _ => rfl, fun _ _ h => h, fun _ _ elements _ h => ⟨elements, h, rfl⟩,
    fun _ => rfl⟩

theorem trans {h'' : Heap} (hc : Changes r h h') (hc' : Changes r h' h'') : Changes r h h'' := by
  refine ⟨hc'.objects.trans hc.objects, hc'.blocks.trans hc.blocks,
    fun id hid => (hc'.outside id hid).trans (hc.outside id hid),
    fun id text ho => hc'.strings id text (hc.strings id text ho), ?_,
    fun id => (hc'.live id).trans (hc.live id)⟩
  intro id element elements pins ho
  obtain ⟨elements', ho', hsize⟩ := hc.arrays id element elements pins ho
  obtain ⟨elements'', ho'', hsize'⟩ := hc'.arrays id element elements' pins ho'
  exact ⟨elements'', ho'', hsize'.trans hsize⟩

end Changes

/-- An array within reach may get other elements. -/
theorem changes_setArray {id : Nat} {element : TargetType} {elements elements' : Array Value}
    {pins : Nat} (ho : h.objects[id]? = some (.array element elements pins))
    (hid : r.places (.array id)) (hsize : elements'.size = elements.size) :
    Changes r h
      { h with objects := h.objects.setIfInBounds id (.array element elements' pins) } := by
  obtain ⟨hlt, heq⟩ := Array.getElem?_eq_some_iff.1 ho
  refine ⟨by simp, rfl, ?_, ?_, ?_, fun _ => rfl⟩
  · intro k hk
    have hne : id ≠ k := by
      rintro rfl
      exact hk hid
    exact Array.getElem?_setIfInBounds_ne hne
  · intro k text hk
    have hne : id ≠ k := by
      rintro rfl
      rw [ho] at hk
      cases hk
    exact (Array.getElem?_setIfInBounds_ne hne).trans hk
  · intro k element' elements'' pins' hk
    by_cases hne : id = k
    · subst hne
      rw [ho] at hk
      cases hk
      exact ⟨elements', Array.getElem?_setIfInBounds_self_of_lt hlt, hsize⟩
    · exact ⟨elements'', (Array.getElem?_setIfInBounds_ne hne).trans hk, rfl⟩

/-- Bytes of a block in use may change. -/
theorem changes_setBytes {id : Nat} {bytes bytes' : List UInt8}
    (hb : h.blocks[id]? = some (.live bytes)) : Changes r h (h.setBytes id bytes') := by
  obtain ⟨hlt, heq⟩ := Array.getElem?_eq_some_iff.1 hb
  refine ⟨rfl, by simp [setBytes], fun _ _ => rfl, fun _ _ h => h, fun _ _ elements _ h =>
    ⟨elements, h, rfl⟩, ?_⟩
  intro k
  by_cases hne : id = k
  · subst hne
    show ((h.blocks.setIfInBounds id (.live bytes'))[id]?).map _ = _
    rw [Array.getElem?_setIfInBounds_self_of_lt hlt, hb]
    rfl
  · show ((h.blocks.setIfInBounds id (.live bytes'))[k]?).map _ = _
    rw [Array.getElem?_setIfInBounds_ne hne]

/-- A store through a pointer within reach changes what is within reach only. -/
theorem changes_store {p : Pointer} {type : TargetType} {v : Value} (hp : r.places p.place)
    (hs : h.store p type v = .ok h') : Changes r h h' := by
  rcases store_eq_ok hs with ⟨id, bytes, bytes', _, hb, rfl⟩ |
    ⟨id, element, elements, pins, index, hid, ho, rfl⟩
  · exact changes_setBytes hb
  · exact changes_setArray ho (hid ▸ hp) (by simp)

theorem Within.setArray {id : Nat} {element : TargetType} {elements : Array Value} {pins : Nat}
    (hw : h.Within r) (he : r.places (.array id) → ∀ v ∈ elements, v.Within r) :
    Within r { h with objects := h.objects.setIfInBounds id (.array element elements pins) } := by
  intro k element' elements' pins' hk ho
  by_cases hne : id = k
  · subst hne
    by_cases hlt : id < h.objects.size
    · rw [show ({ h with objects := h.objects.setIfInBounds id (.array element elements pins) } :
        Heap).objects[id]? = _ from Array.getElem?_setIfInBounds_self_of_lt hlt] at ho
      cases ho
      exact he hk
    · simp [hlt] at ho
  · rw [show ({ h with objects := h.objects.setIfInBounds id (.array element elements pins) } :
        Heap).objects[k]? = _ from Array.getElem?_setIfInBounds_ne hne] at ho
    exact hw k element' elements' pins' hk ho

/-- A store of a value within reach keeps the heap within reach. -/
theorem Within.store {p : Pointer} {type : TargetType} {v : Value} (hw : h.Within r)
    (hp : r.places p.place) (hv : v.Within r) (hs : h.store p type v = .ok h') : h'.Within r := by
  rcases store_eq_ok hs with ⟨id, bytes, bytes', _, hb, rfl⟩ |
    ⟨id, element, elements, pins, index, hid, ho, rfl⟩
  · exact hw
  · refine hw.setArray fun _ w hmem => ?_
    rcases Array.mem_or_eq_of_mem_setIfInBounds hmem with hmem | rfl
    · exact hw id element elements pins (hid ▸ hp) ho w hmem
    · exact hv.narrow

/-- Pinning changes no elements. -/
theorem Within.changePins {id : Nat} {change : Nat → Nat} (hw : h.Within r)
    (hp : h.changePins id change = .ok h') : h'.Within r := by
  obtain ⟨element, elements, pins, ho, rfl⟩ := changePins_eq_ok.1 hp
  exact hw.setArray fun hid => hw id element elements pins hid ho

theorem Within.load {p : Pointer} {type : TargetType} {v : Value} (hw : h.Within r)
    (hp : r.places p.place) (hl : h.load p type = .ok v) : v.Within r := by
  rcases load_eq_ok hl with ⟨_, _, _, rfl⟩ | ⟨id, element, elements, pins, hid, ho, hv | rfl⟩
  · trivial
  · exact hw id element elements pins (hid ▸ hp) ho v hv
  · trivial

end Heap

/-- What the host passes is an array of references to strings, and these are the last objects. -/
theorem Session.hostArguments_eq (args : List String) (s : Store) : hostArguments args s =
    (.object (s.heap.objects.size + args.length), { s with heap := { s.heap with
      objects := (s.heap.objects ++ (args.map HeapObject.string).toArray).push (.array .string
        ((List.range args.length).map fun i => Value.object (s.heap.objects.size + i)).toArray
        0) } }) := by
  unfold hostArguments
  rw [Heap.foldl_addObject]
  simp [Heap.addObject]

/-- What holds of a store holds after the host's strings and their array are added to it if each of these
additions keeps it. -/
theorem Session.hostArguments_induction {motive : Store → Prop} {s : Store} (args : List String)
    (start : motive s)
    (string : ∀ t text, motive t → motive { t with heap := t.heap.addObject (.string text) })
    (array : ∀ t, t.heap.objects.size = s.heap.objects.size + args.length → motive t →
      motive { t with heap := t.heap.addObject (.array .string
        ((List.range args.length).map fun i => Value.object (s.heap.objects.size + i)).toArray 0) }) :
    motive (hostArguments args s).2 := by
  refine array { s with heap := args.foldl (fun h text => h.addObject (.string text)) s.heap } ?_ ?_
  · rw [Heap.foldl_addObject]
    simp
  · exact List.foldlRecOn (motive := fun heap => motive { s with heap := heap }) args _ start
      fun heap h text _ => string { s with heap := heap } text h

/-! ## Instructions -/

namespace Value

variable {v w : Value}

theorem Within.asPointer {p : Pointer} (h : v.Within r) (hp : v.asPointer = .ok p) :
    r.places p.place := by
  unfold Value.asPointer at hp
  split at hp
  · cases hp
    exact h
  · split at hp <;> cases hp

theorem Within.asObject {id : Nat} (h : v.Within r) (hid : v.asObject = .ok id) :
    r.objects id := by
  cases v with
  | object id' =>
    cases hid
    exact h
  | _ => cases hid

end Value

/-- What an instruction makes of the topmost value refers to the same things. -/
theorem Instruction.within_onTop {i : Instruction} {f : Value → Except Fault Value} {v w : Value}
    (hf : i.onTop? = some f) (hv : v.Within r) (hw : f v = .ok w) : w.Within r := by
  cases i <;> simp only [Instruction.onTop?, reduceCtorEq, Option.some.injEq] at hf <;> subst hf
  case neg | not | convInt32 =>
    obtain ⟨_, _, rfl⟩ := Except.map_eq_ok.1 hw
    trivial
  case convInt64 | convNative =>
    cases v <;> cases hw <;> exact hv
  case convAddress =>
    cases v <;> cases hw <;> exact hv

/-- What an instruction makes of two values refers to the same things. -/
theorem Instruction.within_onTop2 {i : Instruction} {f : Value → Value → Except Fault Value}
    {u v w : Value} (hf : i.onTop2? = some f) (hu : u.Within r) (hv : v.Within r)
    (hw : f u v = .ok w) : w.Within r := by
  cases i <;> simp only [Instruction.onTop2?, reduceCtorEq, Option.some.injEq] at hf <;> subst hf
  case binary op =>
    unfold BinaryInstr.apply at hw
    split at hw
    · obtain ⟨_, _, rfl⟩ := Except.map_eq_ok.1 hw
      trivial
    · cases hw
      exact hu
    · cases hw
      exact hv
    · cases hw
      exact hu
    · split at hw
      · cases hw
        trivial
      · cases hw
    · cases hw
  case compare op =>
    obtain ⟨_, _, rfl⟩ := Except.map_eq_ok.1 hw
    trivial

/-- Whether an instruction allocates objects or blocks, or frees them. -/
def Instruction.allocates : Instruction → Bool
  | .callHelper _ | .newArray _ => true
  | _ => false

namespace Activation

variable {a b : Activation} {i : Instruction} {s t : Store}

theorem yields_unpinOld {old : Value} (h : Yields (unpinOld old) s () t) :
    (pinTarget? old = none ∧ t = s) ∨ ∃ id heap, pinTarget? old = some id ∧
      s.heap.unpin id = .ok heap ∧ t = (({ s with heap := heap } : Store).count fun c =>
        { c with unpins := c.unpins + 1 }).log .unpinned := by
  unfold unpinOld at h
  cases hp : pinTarget? old with
  | none =>
    rw [hp] at h
    exact .inl ⟨rfl, (Yields.pure_iff.1 h).2⟩
  | some id =>
    rw [hp] at h
    simp only [Yields.bind_iff, Access.yields_update, Access.yields_count, Access.yields_log] at h
    obtain ⟨_, _, ⟨heap, hh, rfl⟩, _, _, rfl, rfl⟩ := h
    exact .inr ⟨id, heap, rfl, hh, rfl⟩

theorem yields_pinNew {new : Value} (h : Yields (pinNew new) s () t) :
    (pinTarget? new = none ∧ t = s) ∨ ∃ id heap, pinTarget? new = some id ∧
      s.heap.pin id = .ok heap ∧ t = (({ s with heap := heap } : Store).count fun c =>
        { c with pins := c.pins + 1 }).log .pinned := by
  unfold pinNew at h
  cases hp : pinTarget? new with
  | none =>
    rw [hp] at h
    exact .inl ⟨rfl, (Yields.pure_iff.1 h).2⟩
  | some id =>
    rw [hp] at h
    simp only [Yields.bind_iff, Access.yields_update, Access.yields_count, Access.yields_log] at h
    obtain ⟨_, _, ⟨heap, hh, rfl⟩, _, _, rfl, rfl⟩ := h
    exact .inr ⟨id, heap, rfl, hh, rfl⟩

theorem within_repin {pinned : Bool} {old new : Value} (hw : s.heap.Within r)
    (h : Yields (repin pinned old new) s () t) : t.heap.Within r := by
  cases pinned with
  | false =>
    obtain ⟨-, rfl⟩ := Yields.pure_iff.1 h
    exact hw
  | true =>
    obtain ⟨_, u, hold, hnew⟩ := Yields.bind_iff.1 h
    have hu : u.heap.Within r := by
      rcases yields_unpinOld hold with ⟨-, rfl⟩ | ⟨id, heap, -, hh, rfl⟩
      · exact hw
      · exact hw.changePins hh
    rcases yields_pinNew hnew with ⟨-, rfl⟩ | ⟨id, heap, -, hh, rfl⟩
    · exact hu
    · exact hu.changePins hh

theorem elementReference_eq_ok {h : Heap} {element : TargetType} {id : Nat} {index : Int64}
    {v : Value} (hv : elementReference h element id index = .ok v) :
    ∃ size, element.elementSize = .ok size ∧
      v = .pointer ⟨.array id, index * Int64.ofNat size, true⟩ := by
  unfold elementReference at hv
  obtain ⟨⟨_, elements⟩, _, hv⟩ := Except.bind_eq_ok.1 hv
  dsimp only at hv
  split at hv
  · obtain ⟨_, h, _⟩ := Except.bind_eq_ok.1 hv
    cases h
  · obtain ⟨size, hs, hv⟩ := Except.bind_eq_ok.1 hv
    exact ⟨size, hs, (Except.pure_eq_ok.1 hv).symm⟩

/-- What a call refers to stays within reach when an instruction allocates nothing. -/
theorem Executes.within (h : Executes a s i b t) (hi : i.allocates = false) (ha : a.Within r)
    (hs : s.heap.Within r) : b.Within r ∧ t.heap.Within r := by
  have hpushed : ∀ {v : Value} {rest : List Value}, v.Within r → (∀ w ∈ rest, w.Within r) →
      ∀ w ∈ v :: rest, w.Within r := by
    intro v rest hv hrest
    exact List.forall_mem_cons.2 ⟨hv, hrest⟩
  have hpopped : ∀ {v : Value} {rest : List Value}, a.stack = v :: rest →
      v.Within r ∧ ∀ w ∈ rest, w.Within r := by
    intro v rest hstack
    exact List.forall_mem_cons.1 (hstack ▸ ha.stack)
  cases h with
  | nop | branch => exact ⟨⟨ha.1, ha.2, ha.3⟩, hs⟩
  | constInt32 | constInt64 | loadNull => exact ⟨⟨ha.1, ha.2, hpushed trivial ha.3⟩, hs⟩
  | loadArgument hv => exact ⟨⟨ha.1, ha.2, hpushed (ha.1 _ (Array.mem_of_getElem? hv)) ha.3⟩, hs⟩
  | loadLocal hv => exact ⟨⟨ha.1, ha.2, hpushed (ha.2 _ (Array.mem_of_getElem? hv)) ha.3⟩, hs⟩
  | storeArgument hstack _ =>
    obtain ⟨hv, hrest⟩ := hpopped hstack
    refine ⟨⟨fun w hw => ?_, ha.2, hrest⟩, hs⟩
    rcases Array.mem_or_eq_of_mem_setIfInBounds hw with hw | rfl
    · exact ha.1 w hw
    · exact hv.narrow
  | storeLocal hstack _ hpins =>
    obtain ⟨hv, hrest⟩ := hpopped hstack
    refine ⟨⟨ha.1, fun w hw => ?_, hrest⟩, within_repin hs hpins⟩
    rcases Array.mem_or_eq_of_mem_setIfInBounds hw with hw | rfl
    · exact ha.2 w hw
    · exact hv.narrow
  | dup hstack =>
    obtain ⟨hv, hrest⟩ := hpopped hstack
    exact ⟨⟨ha.1, ha.2, hpushed hv (hpushed hv hrest)⟩, hs⟩
  | pop hstack | branchTaken hstack | branchPassed hstack =>
    exact ⟨⟨ha.1, ha.2, (hpopped hstack).2⟩, hs⟩
  | onTop hf hstack hw =>
    obtain ⟨hv, hrest⟩ := hpopped hstack
    exact ⟨⟨ha.1, ha.2, hpushed (Instruction.within_onTop hf hv hw) hrest⟩, hs⟩
  | onTop2 hf hstack hw =>
    obtain ⟨hv, hrest⟩ := hpopped hstack
    obtain ⟨hu, hrest⟩ := List.forall_mem_cons.1 hrest
    exact ⟨⟨ha.1, ha.2, hpushed (Instruction.within_onTop2 hf hu hv hw) hrest⟩, hs⟩
  | callHelper | newArray => cases hi
  | arrayLength hstack => exact ⟨⟨ha.1, ha.2, hpushed trivial (hpopped hstack).2⟩, hs⟩
  | elementAddress hstack _ hid hw =>
    obtain ⟨hv, hrest⟩ := hpopped hstack
    obtain ⟨hu, hrest⟩ := List.forall_mem_cons.1 hrest
    obtain ⟨size, -, rfl⟩ := elementReference_eq_ok hw
    exact ⟨⟨ha.1, ha.2, hpushed (r.closed _ (hu.asObject hid)) hrest⟩, hs⟩
  | load hstack hp hl =>
    obtain ⟨hv, hrest⟩ := hpopped hstack
    exact ⟨⟨ha.1, ha.2, hpushed (hs.load (hv.asPointer hp) hl) hrest⟩, hs⟩
  | store hstack hp hh =>
    obtain ⟨hv, hrest⟩ := hpopped hstack
    obtain ⟨hu, hrest⟩ := List.forall_mem_cons.1 hrest
    exact ⟨⟨ha.1, ha.2, hrest⟩, hs.store (hu.asPointer hp) hv hh⟩

/-- When an instruction allocates nothing and pins nothing, only what is within reach changes. -/
theorem Executes.changes (h : Executes a s i b t) (hi : i.allocates = false) (ha : a.Within r)
    (hpins : ∀ v ∈ a.method.locals, v.pinned = false) :
    Heap.Changes r s.heap t.heap ∧ t.stats = s.stats ∧ t.events = s.events := by
  cases h with
  | storeLocal _ hd hr =>
    rw [hpins _ (Array.mem_of_getElem? hd)] at hr
    obtain ⟨-, rfl⟩ := Yields.pure_iff.1 hr
    exact ⟨.refl _ _, rfl, rfl⟩
  | store hstack hp hh =>
    have hu := ha.stack
    rw [hstack] at hu
    have hu := (List.forall_mem_cons.1 (List.forall_mem_cons.1 hu).2).1
    exact ⟨Heap.changes_store (hu.asPointer hp) hh, rfl, rfl⟩
  | callHelper | newArray => cases hi
  | _ => exact ⟨.refl _ _, rfl, rfl⟩

end Activation

end ManagedC
