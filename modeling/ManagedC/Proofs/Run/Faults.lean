import ManagedC.Proofs.Run.Values

/-!
# How computations on the store fault

A fault is malformed if it says that the program is: a method or label that does not exist, too few
values, a reference to nothing. `Proper` says of a computation on the store that it faults otherwise,
if it faults, and that it keeps what exists: afterwards there is as much in the heap, and nothing
refers to what does not exist. Main statement: the services of the machine are proper
(`Access.proper_callHelper`).
-/

namespace ManagedC

/-- Whether the fault says that the program is not well-formed. -/
def Fault.isMalformed : Fault → Bool
  | .invalidProgram _ | .missingMethod _ => true
  | _ => false

section Results

variable {α β : Type}

/-- The result is no malformed fault. -/
def Sound (x : Except Fault α) : Prop := ∀ f, x = .error f → f.isMalformed = false

namespace Sound

theorem pure (a : α) : Sound (Pure.pure a) := fun _ h => by cases h

theorem throw {f : Fault} (h : f.isMalformed = false) :
    Sound (MonadExcept.throw f : Except Fault α) := fun _ h' => by cases h'; exact h

theorem bind {x : Except Fault α} {g : α → Except Fault β} (hx : Sound x)
    (hg : ∀ a, x = .ok a → Sound (g a)) : Sound (x >>= g) := by
  intro f h
  rcases Except.bind_eq_error.1 h with h | ⟨a, ha, h⟩
  · exact hx f h
  · exact hg a ha f h

theorem throw_bind {f : Fault} {g : α → Except Fault β} (h : f.isMalformed = false) :
    Sound (MonadExcept.throw f >>= g) := (throw h).bind fun _ h => by cases h

theorem map {x : Except Fault α} (g : α → β) (hx : Sound x) : Sound (g <$> x) := by
  intro f h
  cases x with
  | ok a => cases h
  | error e =>
    cases h
    exact hx _ rfl

end Sound

end Results

namespace Access

variable {α : Type} {s : Store}

theorem fails_ofExcept {r : Except Fault α} {t : Store} {f : Fault} :
    Fails (ofExcept r) s f t ↔ r = .error f ∧ t = s := by
  constructor
  · intro h
    cases h
    exact ⟨rfl, rfl⟩
  · rintro ⟨rfl, rfl⟩
    rfl

theorem fails_read {g : Heap → Except Fault α} {t : Store} {f : Fault} :
    Fails (read g) s f t ↔ g s.heap = .error f ∧ t = s := by
  unfold read
  rw [Fails.bind_iff]
  constructor
  · rintro (h | ⟨_, _, hg, h⟩)
    · exact absurd h Fails.not_get
    · obtain ⟨rfl, rfl⟩ := Yields.get_iff.1 hg
      exact fails_ofExcept.1 h
  · intro h
    exact .inr ⟨s, s, Yields.get_iff.2 ⟨rfl, rfl⟩, fails_ofExcept.2 h⟩

theorem fails_update {g : Heap → Except Fault Heap} {t : Store} {f : Fault} :
    Fails (update g) s f t ↔ g s.heap = .error f ∧ t = s := by
  unfold update
  rw [Fails.bind_iff]
  constructor
  · rintro (h | ⟨_, _, _, h⟩)
    · exact fails_read.1 h
    · exact absurd h Fails.not_modify
  · intro h
    exact .inl (fails_read.2 h)

end Access

namespace Value

theorem sound_asInt (v : Value) : Sound v.asInt := by
  cases v <;> first | exact Sound.pure _ | exact Sound.throw rfl

theorem sound_asObject (v : Value) : Sound v.asObject := by
  cases v <;> first | exact Sound.pure _ | exact Sound.throw rfl

theorem sound_asPointer (v : Value) : Sound v.asPointer := by
  unfold asPointer
  split
  · exact Sound.pure _
  · split <;> exact Sound.throw rfl

end Value

/-- What exists in a heap. -/
def Heap.extent (h : Heap) : Reach where
  objects id := id < h.objects.size
  places
    | .native id => id < h.blocks.size
    | .array id => id < h.objects.size
  closed _ hid := hid

/-- In a larger heap more exists. -/
theorem Value.Within.extent {h h' : Heap} {v : Value} (hv : v.Within h.extent)
    (hobjects : h.objects.size ≤ h'.objects.size) (hblocks : h.blocks.size ≤ h'.blocks.size) :
    v.Within h'.extent := by
  cases v with
  | object id => exact Nat.lt_of_lt_of_le hv hobjects
  | pointer p =>
    obtain ⟨place, offset, managed⟩ := p
    cases place with
    | native id => exact Nat.lt_of_lt_of_le hv hblocks
    | array id => exact Nat.lt_of_lt_of_le hv hobjects
  | _ => trivial

/-- Everything that is referred to in the heap exists. -/
def Heap.Valid (h : Heap) : Prop := h.Within h.extent

namespace Heap

variable {h : Heap}

theorem sound_object {id : Nat} (hid : id < h.objects.size) : Sound (h.object id) := by
  unfold object
  rw [Array.getElem?_eq_getElem hid]
  exact Sound.pure _

theorem sound_string {id : Nat} (hid : id < h.objects.size) : Sound (h.string id) := by
  refine (sound_object hid).bind fun o _ => ?_
  cases o
  · exact Sound.pure _
  · exact Sound.throw rfl

theorem sound_array {id : Nat} (hid : id < h.objects.size) : Sound (h.array id) := by
  refine (sound_object hid).bind fun o _ => ?_
  cases o
  · exact Sound.throw rfl
  · exact Sound.pure _

theorem sound_setElements {id : Nat} (elements : Array Value) (hid : id < h.objects.size) :
    Sound (h.setElements id elements) := by
  refine (sound_object hid).bind fun o _ => ?_
  cases o
  · exact Sound.throw rfl
  · exact Sound.pure _

theorem sound_changePins (id : Nat) (change : Nat → Nat) : Sound (h.changePins id change) := by
  unfold changePins
  split
  · exact Sound.pure _
  · exact Sound.throw rfl

theorem sound_block {id : Nat} (hid : id < h.blocks.size) : Sound (h.block id) := by
  unfold block
  rw [Array.getElem?_eq_getElem hid]
  cases h.blocks[id]
  · exact Sound.pure _
  · exact Sound.throw rfl

theorem sound_free {id : Nat} (hid : id < h.blocks.size) : Sound (h.free id) := by
  unfold free
  rw [Array.getElem?_eq_getElem hid]
  cases h.blocks[id]
  · exact Sound.pure _
  · exact Sound.throw rfl

theorem sound_elementSize (type : TargetType) : Sound type.elementSize := by
  unfold TargetType.elementSize
  split
  · exact Sound.pure _
  · exact Sound.throw rfl

theorem sound_checkAccess (p : Pointer) : Sound (h.checkAccess p) := by
  unfold checkAccess
  split
  · split
    · exact Sound.pure _
    · exact Sound.throw rfl
  · exact Sound.pure _

theorem sound_elementIndex {id : Nat} {offset : Int64} (hid : id < h.objects.size) :
    Sound (h.elementIndex id offset) := by
  unfold elementIndex
  refine (sound_array hid).bind fun a _ => (sound_elementSize _).bind fun size _ => ?_
  dsimp only
  split
  · exact .throw_bind rfl
  · split
    · exact .throw_bind rfl
    · exact .pure _

theorem sound_nativeStart (size : Nat) (offset : Int64) (width : Nat) :
    Sound (nativeStart size offset width) := by
  unfold nativeStart
  split
  · exact Sound.throw rfl
  · exact Sound.pure _

theorem sound_load {p : Pointer} {type : TargetType} (hp : h.extent.places p.place) :
    Sound (h.load p type) := by
  unfold load
  refine (sound_checkAccess p).bind fun _ _ => ?_
  cases hplace : p.place with
  | array id =>
    rw [hplace] at hp
    refine (sound_elementIndex hp).bind fun index _ => ?_
    exact (sound_array hp).bind fun a _ => Sound.pure _
  | native id =>
    rw [hplace] at hp
    dsimp only
    split
    · exact .throw_bind rfl
    · refine (sound_block hp).bind fun bytes _ => (sound_elementSize type).bind fun width _ => ?_
      exact (sound_nativeStart _ _ _).bind fun start _ => .pure _

theorem sound_store {p : Pointer} {type : TargetType} {v : Value}
    (hp : h.extent.places p.place) : Sound (h.store p type v) := by
  unfold store
  refine (sound_checkAccess p).bind fun _ _ => ?_
  cases hplace : p.place with
  | array id =>
    rw [hplace] at hp
    refine (sound_elementIndex hp).bind fun index _ => ?_
    exact (sound_array hp).bind fun a _ => sound_setElements _ hp
  | native id =>
    rw [hplace] at hp
    dsimp only
    split
    · exact .throw_bind rfl
    · refine (sound_elementSize type).bind fun width _ => v.sound_asInt.bind fun n _ => ?_
      refine (sound_block hp).bind fun bytes _ => ?_
      exact (sound_nativeStart _ _ _).bind fun start _ => .pure _

end Heap

/-! ## Computations on the store -/

/-- The heap of the first store is still there in the second one, perhaps changed and with more in
it, and nothing that does not exist is referred to. -/
structure Store.Keeps (s t : Store) : Prop where
  valid : s.heap.Valid → t.heap.Valid
  objects : s.heap.objects.size ≤ t.heap.objects.size
  blocks : s.heap.blocks.size ≤ t.heap.blocks.size

namespace Store.Keeps

variable {s t u : Store}

theorem refl (s : Store) : Keeps s s := ⟨id, Nat.le_refl _, Nat.le_refl _⟩

theorem trans (h : Keeps s t) (h' : Keeps t u) : Keeps s u :=
  ⟨fun hv => h'.valid (h.valid hv), Nat.le_trans h.objects h'.objects,
    Nat.le_trans h.blocks h'.blocks⟩

/-- What exists goes on to exist. -/
theorem within (h : Keeps s t) {v : Value} (hv : v.Within s.heap.extent) :
    v.Within t.heap.extent := hv.extent h.objects h.blocks

/-- Where nothing is made or lost, nothing that does not exist must get into the heap. -/
theorem of_sizes (ho : t.heap.objects.size = s.heap.objects.size)
    (hb : t.heap.blocks.size = s.heap.blocks.size)
    (hv : s.heap.Valid → t.heap.Within s.heap.extent) : Keeps s t := by
  refine ⟨fun hs => ?_, Nat.le_of_eq ho.symm, Nat.le_of_eq hb.symm⟩
  have hextent : t.heap.extent = s.heap.extent := by
    unfold Heap.extent
    rw [ho, hb]
  unfold Heap.Valid
  rw [hextent]
  exact hv hs

/-- An object that refers to what exists may be added. -/
theorem addObject {o : HeapObject}
    (ho : ∀ element elements pins, o = .array element elements pins →
      ∀ v ∈ elements, v.Within s.heap.extent) :
    Keeps s { s with heap := s.heap.addObject o } := by
  have hsize : s.heap.objects.size ≤ (s.heap.objects.push o).size := by simp
  refine ⟨fun hs => ?_, hsize, Nat.le_refl _⟩
  intro id element elements pins _ hget v hv
  have hget : (s.heap.objects.push o)[id]? = some (.array element elements pins) := hget
  rw [Array.getElem?_push] at hget
  split at hget
  · exact (ho element elements pins (Option.some.inj hget) v hv).extent hsize (Nat.le_refl _)
  · obtain ⟨hid, -⟩ := Array.getElem?_eq_some_iff.1 hget
    exact (hs id element elements pins hid hget v hv).extent hsize (Nat.le_refl _)

end Store.Keeps

/-- The computation does what is wanted of it if it succeeds, faults in a way that is not malformed
if it does not, and keeps what exists in both cases. -/
structure Proper {α : Type} (x : Access α) (s : Store) (P : α → Store → Prop) : Prop where
  yields : ∀ a t, Yields x s a t → P a t ∧ s.Keeps t
  fails : ∀ f t, Fails x s f t → f.isMalformed = false ∧ s.Keeps t

namespace Proper

variable {α β : Type} {s : Store} {P : α → Store → Prop} {Q : β → Store → Prop}

theorem pure {a : α} (h : P a s) : Proper (Pure.pure a) s P where
  yields _ _ hy := by
    obtain ⟨rfl, rfl⟩ := Yields.pure_iff.1 hy
    exact ⟨h, .refl _⟩
  fails _ _ hf := absurd hf Fails.not_pure

theorem throw {f : Fault} (h : f.isMalformed = false) :
    Proper (MonadExcept.throw f : Access α) s P where
  yields _ _ hy := absurd hy Yields.not_throw
  fails _ _ hf := by
    obtain ⟨rfl, rfl⟩ := Fails.throw_iff.1 hf
    exact ⟨h, .refl _⟩

theorem bind {x : Access α} {g : α → Access β} (hx : Proper x s P)
    (hg : ∀ a t, P a t → s.Keeps t → Proper (g a) t Q) : Proper (x >>= g) s Q where
  yields b u h := by
    obtain ⟨a, t, hxa, hga⟩ := Yields.bind_iff.1 h
    obtain ⟨ha, hk⟩ := hx.yields a t hxa
    obtain ⟨hb, hk'⟩ := (hg a t ha hk).yields b u hga
    exact ⟨hb, hk.trans hk'⟩
  fails f u h := by
    rcases Fails.bind_iff.1 h with h | ⟨a, t, hxa, hga⟩
    · exact hx.fails f u h
    · obtain ⟨ha, hk⟩ := hx.yields a t hxa
      obtain ⟨hf, hk'⟩ := (hg a t ha hk).fails f u hga
      exact ⟨hf, hk.trans hk'⟩

theorem throw_bind {f : Fault} {g : α → Access β} (h : f.isMalformed = false) :
    Proper (MonadExcept.throw f >>= g) s Q :=
  bind (P := fun _ _ => False) (throw h) fun _ _ hf => hf.elim

theorem ofExcept {x : Except Fault α} (hx : Sound x) (h : ∀ a, x = .ok a → P a s) :
    Proper (Access.ofExcept x) s P where
  yields a _ hy := by
    obtain ⟨ha, rfl⟩ := Access.yields_ofExcept.1 hy
    exact ⟨h a ha, .refl _⟩
  fails f _ hf := by
    obtain ⟨he, rfl⟩ := Access.fails_ofExcept.1 hf
    exact ⟨hx f he, .refl _⟩

theorem read {g : Heap → Except Fault α} (hg : Sound (g s.heap))
    (h : ∀ a, g s.heap = .ok a → P a s) : Proper (Access.read g) s P where
  yields a _ hy := by
    obtain ⟨ha, rfl⟩ := Access.yields_read.1 hy
    exact ⟨h a ha, .refl _⟩
  fails f _ hf := by
    obtain ⟨he, rfl⟩ := Access.fails_read.1 hf
    exact ⟨hg f he, .refl _⟩

/-- What cannot change the store leaves it as it is for what follows. -/
theorem ofExcept_bind {x : Except Fault α} {g : α → Access β} (hx : Sound x)
    (hg : ∀ a, x = .ok a → Proper (g a) s Q) : Proper (Access.ofExcept x >>= g) s Q := by
  refine bind (P := fun a t => x = .ok a ∧ t = s) (ofExcept hx fun a ha => ⟨ha, rfl⟩) ?_
  rintro a t ⟨ha, rfl⟩ -
  exact hg a ha

theorem read_bind {f : Heap → Except Fault α} {g : α → Access β} (hf : Sound (f s.heap))
    (hg : ∀ a, f s.heap = .ok a → Proper (g a) s Q) : Proper (Access.read f >>= g) s Q := by
  refine bind (P := fun a t => f s.heap = .ok a ∧ t = s) (read hf fun a ha => ⟨ha, rfl⟩) ?_
  rintro a t ⟨ha, rfl⟩ -
  exact hg a ha

theorem update {g : Heap → Except Fault Heap} {P : Unit → Store → Prop}
    (hg : Sound (g s.heap)) (h : ∀ heap, g s.heap = .ok heap →
      P () { s with heap := heap } ∧ s.Keeps { s with heap := heap }) :
    Proper (Access.update g) s P where
  yields _ _ hy := by
    obtain ⟨heap, hh, rfl⟩ := Access.yields_update.1 hy
    exact h heap hh
  fails f _ hf := by
    obtain ⟨he, rfl⟩ := Access.fails_update.1 hf
    exact ⟨hg f he, .refl _⟩

theorem get {P : Store → Store → Prop} (h : P s s) : Proper (MonadState.get : Access Store) s P where
  yields _ _ hy := by
    obtain ⟨rfl, rfl⟩ := Yields.get_iff.1 hy
    exact ⟨h, .refl _⟩
  fails _ _ hf := absurd hf Fails.not_get

theorem modify {g : Store → Store} {P : Unit → Store → Prop} (h : P () (g s))
    (hg : s.Keeps (g s)) : Proper (modify g : Access Unit) s P where
  yields _ _ hy := by
    obtain rfl := Yields.modify_iff.1 hy
    exact ⟨h, hg⟩
  fails _ _ hf := absurd hf Fails.not_modify

theorem count {change : Stats → Stats} {P : Unit → Store → Prop} (h : P () (s.count change)) :
    Proper (Access.count change) s P := modify h ⟨id, Nat.le_refl _, Nat.le_refl _⟩

theorem log {e : Event} {P : Unit → Store → Prop} (h : P () (s.log e)) :
    Proper (Access.log e) s P := modify h ⟨id, Nat.le_refl _, Nat.le_refl _⟩

theorem weaken {x : Access α} {Q : α → Store → Prop} (hx : Proper x s P)
    (h : ∀ a t, P a t → s.Keeps t → Q a t) : Proper x s Q where
  yields a t hy := by
    obtain ⟨ha, hk⟩ := hx.yields a t hy
    exact ⟨h a t ha hk, hk⟩
  fails := hx.fails

/-- A new object exists when it is made. -/
theorem newObject {o : HeapObject} {P : Nat → Store → Prop}
    (ho : ∀ element elements pins, o = .array element elements pins →
      ∀ v ∈ elements, v.Within s.heap.extent)
    (h : P s.heap.objects.size { s with heap := s.heap.addObject o }) :
    Proper (Access.newObject o) s P := by
  refine ⟨fun a t hy => ?_, fun f t hf => ?_⟩
  · unfold Access.newObject at hy
    simp only [Yields.bind_iff, Yields.get_iff, Yields.modify_iff, Yields.pure_iff] at hy
    obtain ⟨_, _, ⟨rfl, rfl⟩, _, _, rfl, rfl, rfl⟩ := hy
    exact ⟨h, .addObject ho⟩
  · unfold Access.newObject at hf
    simp only [Fails.bind_iff, Fails.not_get, Fails.not_modify, Fails.not_pure, and_false,
      exists_false, or_self] at hf

theorem newBlock {bytes : List UInt8} {P : Nat → Store → Prop}
    (h : P s.heap.blocks.size { s with heap := s.heap.addBlock bytes }) :
    Proper (Access.newBlock bytes) s P := by
  have hsize : s.heap.blocks.size ≤ (s.heap.blocks.push (.live bytes)).size := by simp
  have hk : s.Keeps { s with heap := s.heap.addBlock bytes } := by
    refine ⟨fun hs => ?_, Nat.le_refl _, hsize⟩
    intro id element elements pins hid hget v hv
    exact (hs id element elements pins hid hget v hv).extent (Nat.le_refl _) hsize
  refine ⟨fun a t hy => ?_, fun f t hf => ?_⟩
  · unfold Access.newBlock at hy
    simp only [Yields.bind_iff, Yields.get_iff, Yields.modify_iff, Yields.pure_iff] at hy
    obtain ⟨_, _, ⟨rfl, rfl⟩, _, _, rfl, rfl, rfl⟩ := hy
    exact ⟨h, hk⟩
  · unfold Access.newBlock at hf
    simp only [Fails.bind_iff, Fails.not_get, Fails.not_modify, Fails.not_pure, and_false,
      exists_false, or_self] at hf

/-- A computation for each element of a list, one after the other. -/
theorem forM {f : β → Access Unit} {inv : Store → Prop} : ∀ {xs : List β} {s : Store}, inv s →
    (∀ x ∈ xs, ∀ t, inv t → Proper (f x) t fun _ u => inv u) → Proper (xs.forM f) s fun _ t => inv t
  | [], s, hs, _ => .pure hs
  | x :: xs, s, hs, h => by
    refine (h x List.mem_cons_self s hs).bind fun _ t ht _ => ?_
    exact forM ht fun y hy => h y (List.mem_cons_of_mem _ hy)

end Proper

/-! ## Services -/

namespace Access

variable {s : Store}

theorem proper_texts : ∀ {values : List Value} {s : Store}, s.heap.Valid →
    (∀ v ∈ values, v.Within s.heap.extent) → Proper (texts values) s fun _ t => t = s
  | [], s, _, _ => .pure rfl
  | v :: values, s, hs, h => by
    obtain ⟨hv, hvs⟩ := List.forall_mem_cons.1 h
    unfold texts
    rw [List.mapM_cons]
    refine Proper.bind (P := fun _ t => t = s) ?_ fun text t ht _ => ?_
    · refine .ofExcept_bind v.sound_asObject fun id hid => ?_
      exact .read (Heap.sound_string (hv.asObject hid)) fun _ _ => rfl
    · subst ht
      exact (proper_texts hs hvs).bind fun _ _ ht _ => .pure ht

theorem proper_nativeCopies : ∀ {texts : List String} {s : Store},
    Proper (texts.mapM nativeCopy) s fun vs t => ∀ v ∈ vs, v.Within t.heap.extent
  | [], s => .pure (by simp)
  | text :: texts, s => by
    rw [List.mapM_cons]
    refine Proper.bind (P := fun v t => v.Within t.heap.extent) ?_ fun v t hv hk => ?_
    · unfold nativeCopy
      refine Proper.bind (P := fun id t => id < t.heap.blocks.size)
        (.newBlock (by simp [Heap.addBlock])) fun id t hid _ => ?_
      refine Proper.bind (P := fun _ t => id < t.heap.blocks.size) (.count hid) fun _ t hid _ => ?_
      exact .pure hid
    · refine proper_nativeCopies.bind fun vs u hvs hk' => .pure ?_
      exact List.forall_mem_cons.2 ⟨hk'.within hv, hvs⟩

theorem proper_argsToArgv {v : Value} (hv : v.Within s.heap.extent) (hs : s.heap.Valid) :
    Proper (argsToArgv v) s fun w t => w.Within t.heap.extent := by
  unfold argsToArgv
  refine .ofExcept_bind v.sound_asObject fun id hid => ?_
  refine .read_bind (Heap.sound_array (hv.asObject hid)) fun a ha => ?_
  have hwithin : ∀ w ∈ a.2, w.Within s.heap.extent := by
    obtain ⟨pins, ho⟩ := Heap.array_eq_ok.1 ha
    exact hs id _ _ pins (hv.asObject hid) ho
  dsimp only
  split
  · exact .throw_bind rfl
  refine (proper_texts hs fun w hw => hwithin w (by simpa using hw)).bind fun texts w hw _ => ?_
  subst hw
  refine proper_nativeCopies.bind fun copies w hcopies hk => ?_
  refine Proper.bind (P := fun _ w => ∀ v ∈ copies, v.Within w.heap.extent) (.count hcopies)
    fun _ w hcopies _ => ?_
  refine Proper.bind (P := fun id w => id < w.heap.objects.size)
    (.newObject ?_ (by simp [Heap.addObject])) fun id w hid _ => .pure hid
  intro element elements pins heq v hv
  cases heq
  rcases List.mem_append.1 (List.mem_toArray.1 hv) with hv | hv
  · exact hcopies v hv
  · obtain rfl := List.mem_singleton.1 hv
    trivial

theorem proper_freeTarget {v : Value} (hv : v.Within s.heap.extent) :
    Proper (freeTarget v) s fun _ _ => True := by
  unfold freeTarget
  split
  · rename_i id _ _
    refine Proper.bind (P := fun _ _ => True) (.update (Heap.sound_free hv) fun heap hh => ?_)
      fun _ _ _ _ => .count trivial
    obtain ⟨bytes, hb, rfl⟩ := Heap.free_eq_ok.1 hh
    exact ⟨trivial, .of_sizes rfl (by simp) fun hs => hs⟩
  · exact .pure trivial

theorem proper_freeArgv {v : Value} (hv : v.Within s.heap.extent) (hs : s.heap.Valid) :
    Proper (freeArgv v) s fun _ _ => True := by
  unfold freeArgv
  refine .ofExcept_bind v.sound_asObject fun id hid => ?_
  refine .read_bind (Heap.sound_array (hv.asObject hid)) fun a ha => ?_
  have hwithin : ∀ w ∈ a.2, w.Within s.heap.extent := by
    obtain ⟨pins, ho⟩ := Heap.array_eq_ok.1 ha
    exact hs id _ _ pins (hv.asObject hid) ho
  refine Proper.bind (P := fun _ t => ∀ w ∈ a.2, w.Within t.heap.extent) (.count hwithin)
    fun _ t ht _ => ?_
  have hloop : Proper (a.2.toList.forM freeTarget) t fun _ u => t.Keeps u := by
    refine .forM (.refl t) fun w hw u hu => ?_
    have hwithin := hu.within (ht w (by simpa using hw))
    exact (proper_freeTarget hwithin).weaken fun _ _ _ hk => hu.trans hk
  exact hloop.weaken fun _ _ _ _ => trivial

theorem proper_setElements {id : Nat} {elements : Array Value} (hid : id < s.heap.objects.size)
    (h : s.heap.Valid → ∀ v ∈ elements, v.Within s.heap.extent) :
    Proper (update (·.setElements id elements)) s fun _ _ => True := by
  refine .update (Heap.sound_setElements _ hid) fun heap hh => ⟨trivial, ?_⟩
  obtain ⟨element, old, pins, ho, rfl⟩ := Heap.setElements_eq_ok.1 hh
  exact .of_sizes (by simp) rfl fun hs => Heap.Within.setArray hs fun _ => h hs

theorem proper_arrayCopy {v w : Value} {length : Int64} (hv : v.Within s.heap.extent)
    (hw : w.Within s.heap.extent) : Proper (arrayCopy v w length) s fun _ _ => True := by
  unfold arrayCopy
  refine .ofExcept_bind v.sound_asObject fun source hid => ?_
  have hsource := hv.asObject hid
  refine .ofExcept_bind w.sound_asObject fun destination hid => ?_
  have hdestination := hw.asObject hid
  split
  · exact .throw_bind rfl
  refine .read_bind (Heap.sound_array hsource) fun ⟨element, items⟩ ha => ?_
  dsimp only
  split
  · exact .throw_bind rfl
  refine .read_bind (Heap.sound_array hdestination) fun ⟨element', targets⟩ hb => ?_
  dsimp only
  split
  · exact .throw_bind rfl
  split
  · exact .throw_bind rfl
  refine proper_setElements hdestination fun hs x hx => ?_
  obtain ⟨pins, ha⟩ := Heap.array_eq_ok.1 ha
  obtain ⟨pins', hb⟩ := Heap.array_eq_ok.1 hb
  rcases Array.mem_append.1 hx with hx | hx
  · obtain ⟨k, hk, rfl⟩ := Array.mem_extract_iff_getElem.1 hx
    exact hs source _ _ pins hsource ha _ (Array.getElem_mem _)
  · obtain ⟨k, hk, rfl⟩ := Array.mem_extract_iff_getElem.1 hx
    exact hs destination _ _ pins' hdestination hb _ (Array.getElem_mem _)

/-- What services need exists, so they do not fault in a malformed way. -/
theorem proper_callHelper {helper : Helper} {arguments : List Value}
    (hlen : arguments.length = helper.arity) (h : ∀ v ∈ arguments, v.Within s.heap.extent)
    (hs : s.heap.Valid) : Proper (callHelper helper arguments) s fun w t =>
      ∀ v ∈ w.toList, v.Within t.heap.extent := by
  match helper, arguments, hlen with
  | .argsToArgv, [args], _ =>
    refine ((proper_argsToArgv (h args List.mem_cons_self) hs).bind fun w t hw _ => ?_ : Proper
      (argsToArgv args >>= fun w => pure (some w)) s _)
    exact .pure fun v hv => by
      obtain rfl := List.mem_singleton.1 hv
      exact hw
  | .freeArgv, [argv], _ =>
    exact (proper_freeArgv (h argv List.mem_cons_self) hs).bind fun _ _ _ _ => .pure (by simp)
  | .arrayCopy, [source, destination, length], _ =>
    refine .ofExcept_bind length.sound_asInt fun n _ => ?_
    exact (proper_arrayCopy (h source (by simp)) (h destination (by simp))).bind
      fun _ _ _ _ => .pure (by simp)

end Access

end ManagedC
