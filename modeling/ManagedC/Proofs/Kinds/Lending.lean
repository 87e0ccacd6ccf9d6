import ManagedC.Proofs.Run.Faults

/-!
# What the starter lends

The starter works with managed arrays that it makes itself, and lends pointers into them to the entry
function. The arrays that are in the heap before the program runs are not among them. So they are told
apart by their numbers: what is made later has a larger number. Compiled functions get at the later
arrays, and at native memory, but never at a managed object as such. Main statements: the services of
the machine do not put anything else into the later arrays, whether they fault or not
(`Access.lends_callHelper`), and so do the instructions that are executed (`Activation.Executes.lends`).
-/

namespace ManagedC

namespace Reach

/-- Native memory, and the elements of the arrays from a number on. -/
def lent (first : Nat) : Reach where
  objects _ := False
  places
    | .native _ => True
    | .array id => first ≤ id
  closed _ h := h.elim

/-- The arrays from a number on are within reach, too. -/
def made (first : Nat) : Reach where
  objects id := first ≤ id
  places := (lent first).places
  closed _ h := h

end Reach

variable {first : Nat} {v w : Value}

theorem Value.Within.made (h : v.Within (.lent first)) : v.Within (.made first) := by
  cases v with
  | object => exact h.elim
  | _ => exact h

/-- The arrays from a number on do not lead to the objects before it, nor to any object as such. -/
structure Store.Lends (first : Nat) (s : Store) : Prop where
  /-- The elements of the arrays. -/
  within : s.heap.Within (.lent first)
  /-- What is made from now on has larger numbers. -/
  size : first ≤ s.heap.objects.size

namespace Store.Lends

variable {s t : Store}

/-- Nothing has been made yet. -/
theorem start (s : Store) : s.Lends s.heap.objects.size := by
  refine ⟨fun id element elements pins hid ho => ?_, Nat.le_refl _⟩
  exact absurd (Array.getElem?_eq_some_iff.1 ho).1 (Nat.not_lt.2 hid)

/-- Counts and events do not matter. -/
theorem congr (h : s.Lends first) (hheap : t.heap = s.heap) : t.Lends first :=
  ⟨hheap ▸ h.within, hheap ▸ h.size⟩

/-- Nor do blocks of native memory. -/
theorem of_objects (h : s.Lends first) (hobjects : t.heap.objects = s.heap.objects) :
    t.Lends first := by
  refine ⟨fun id element elements pins hid ho => ?_, hobjects ▸ h.size⟩
  rw [hobjects] at ho
  exact h.within id element elements pins hid ho

/-- An object whose elements are within reach is added. -/
theorem addObject (h : s.Lends first) {o : HeapObject}
    (ho : ∀ element elements pins, o = .array element elements pins →
      ∀ v ∈ elements, v.Within (.lent first)) :
    Lends first { s with heap := s.heap.addObject o } := by
  refine ⟨fun id element elements pins hid hget => ?_, ?_⟩
  · have hget : (s.heap.objects.push o)[id]? = some (.array element elements pins) := hget
    rw [Array.getElem?_push] at hget
    split at hget
    · exact ho element elements pins (Option.some.inj hget)
    · exact h.within id element elements pins hid hget
  · show first ≤ (s.heap.objects.push o).size
    rw [Array.size_push]
    exact Nat.le_succ_of_le h.size

/-- An array gets other elements that are within reach, or other pins. -/
theorem setArray (h : s.Lends first) {id : Nat} {element : TargetType} {elements : Array Value}
    {pins : Nat} (he : first ≤ id → ∀ v ∈ elements, v.Within (.lent first)) :
    Lends first { s with heap := { s.heap with
      objects := s.heap.objects.setIfInBounds id (.array element elements pins) } } := by
  refine ⟨h.within.setArray he, ?_⟩
  show first ≤ (s.heap.objects.setIfInBounds id _).size
  rw [Array.size_setIfInBounds]
  exact h.size

theorem changePins (h : s.Lends first) {id : Nat} {change : Nat → Nat} {heap : Heap}
    (hp : s.heap.changePins id change = .ok heap) : Lends first { s with heap := heap } := by
  obtain ⟨element, elements, pins, ho, rfl⟩ := Heap.changePins_eq_ok.1 hp
  exact h.setArray fun hid => h.within id element elements pins hid ho

/-- Something that is no object is stored through a pointer. -/
theorem storeThrough (h : s.Lends first) {p : Pointer} {type : TargetType} {heap : Heap}
    (hv : v.Within (.lent first)) (hs : s.heap.store p type v = .ok heap) :
    Lends first { s with heap := heap } := by
  rcases Heap.store_eq_ok hs with ⟨id, bytes, bytes', -, -, rfl⟩ |
    ⟨id, element, elements, pins, index, -, ho, rfl⟩
  · exact h.of_objects rfl
  · refine h.setArray fun hid w hw => ?_
    rcases Array.mem_or_eq_of_mem_setIfInBounds hw with hw | rfl
    · exact h.within id element elements pins hid ho w hw
    · exact hv.narrow

theorem opened (h : s.Lends first) : s.opened.Lends first := ⟨h.within, h.size⟩

theorem elements (h : s.Lends first) {id : Nat} {element : TargetType} {elements : Array Value}
    (hid : first ≤ id) (ha : s.heap.array id = .ok (element, elements)) :
    ∀ v ∈ elements, v.Within (.lent first) := by
  obtain ⟨pins, ho⟩ := Heap.array_eq_ok.1 ha
  exact h.within id element elements pins hid ho

end Store.Lends

/-- The computation keeps what is lent, also when it faults, and answers with something that has a
property. -/
def Access.Lends {α : Type} (first : Nat) (x : Access α) (P : α → Prop) : Prop :=
  ∀ s, s.Lends first → (∀ a t, Yields x s a t → t.Lends first ∧ P a) ∧
    ∀ f t, Fails x s f t → t.Lends first

namespace Access.Lends

variable {α β : Type} {x : Access α} {g : α → Access β} {P : α → Prop} {Q : β → Prop}

theorem pure {a : α} (ha : P a) : Access.Lends first (Pure.pure a) P := by
  refine fun s hs => ⟨fun b t h => ?_, fun f t h => absurd h Fails.not_pure⟩
  obtain ⟨rfl, rfl⟩ := Yields.pure_iff.1 h
  exact ⟨hs, ha⟩

theorem weaken {Q : α → Prop} (hx : Access.Lends first x P) (h : ∀ a, P a → Q a) :
    Access.Lends first x Q := fun s hs =>
  ⟨fun a t ha => ⟨((hx s hs).1 a t ha).1, h a ((hx s hs).1 a t ha).2⟩, (hx s hs).2⟩

theorem throw (f : Fault) : Access.Lends first (MonadExcept.throw f : Access α) P := by
  refine fun s hs => ⟨fun a t h => absurd h Yields.not_throw, fun f t h => ?_⟩
  obtain ⟨-, rfl⟩ := Fails.throw_iff.1 h
  exact hs

theorem bind (hx : Access.Lends first x P)
    (hg : ∀ a, P a → Access.Lends first (g a) Q) : Access.Lends first (x >>= g) Q := by
  intro s hs
  obtain ⟨hyields, hfails⟩ := hx s hs
  refine ⟨fun b t h => ?_, fun f t h => ?_⟩
  · obtain ⟨a, u, ha, h⟩ := Yields.bind_iff.1 h
    obtain ⟨hu, hP⟩ := hyields a u ha
    exact (hg a hP u hu).1 b t h
  · rcases Fails.bind_iff.1 h with h | ⟨a, u, ha, h⟩
    · exact hfails f t h
    · obtain ⟨hu, hP⟩ := hyields a u ha
      exact (hg a hP u hu).2 f t h

theorem throw_bind (f : Fault) : Access.Lends first (MonadExcept.throw f >>= g) Q :=
  (throw (P := fun _ => False) f).bind fun _ h => h.elim

theorem get : Access.Lends first (MonadState.get : Access Store) fun _ => True := by
  refine fun s hs => ⟨fun _ t ht => ?_, fun f t h => absurd h Fails.not_get⟩
  obtain ⟨rfl, rfl⟩ := Yields.get_iff.1 ht
  exact ⟨hs, trivial⟩

theorem read {f : Heap → Except Fault α}
    (h : ∀ s : Store, s.Lends first → ∀ a, f s.heap = .ok a → P a) :
    Access.Lends first (Access.read f) P := by
  refine fun s hs => ⟨fun a t ha => ?_, fun e t he => ?_⟩
  · obtain ⟨hok, rfl⟩ := Access.yields_read.1 ha
    exact ⟨hs, h t hs a hok⟩
  · obtain ⟨-, rfl⟩ := Access.fails_read.1 he
    exact hs

theorem ofExcept {r : Except Fault α} (h : ∀ a, r = .ok a → P a) :
    Access.Lends first (Access.ofExcept r) P := by
  refine fun s hs => ⟨fun a t ha => ?_, fun e t he => ?_⟩
  · obtain ⟨hok, rfl⟩ := Access.yields_ofExcept.1 ha
    exact ⟨hs, h a hok⟩
  · obtain ⟨-, rfl⟩ := Access.fails_ofExcept.1 he
    exact hs

theorem update {f : Heap → Except Fault Heap}
    (h : ∀ (s : Store) (heap : Heap), s.Lends first → f s.heap = .ok heap →
      Store.Lends first { s with heap := heap }) :
    Access.Lends first (Access.update f) fun _ => True := by
  refine fun s hs => ⟨fun _ t ht => ?_, fun e t he => ?_⟩
  · obtain ⟨heap, hheap, rfl⟩ := Access.yields_update.1 ht
    exact ⟨h s heap hs hheap, trivial⟩
  · obtain ⟨-, rfl⟩ := Access.fails_update.1 he
    exact hs

theorem count (change : Stats → Stats) : Access.Lends first (Access.count change) fun _ => True := by
  refine fun s hs => ⟨fun _ t ht => ?_, fun f t h => absurd h Fails.not_modify⟩
  obtain rfl := Access.yields_count.1 ht
  exact ⟨hs.congr rfl, trivial⟩

theorem log (e : Event) : Access.Lends first (Access.log e) fun _ => True := by
  refine fun s hs => ⟨fun _ t ht => ?_, fun f t h => absurd h Fails.not_modify⟩
  obtain rfl := Access.yields_log.1 ht
  exact ⟨hs.congr rfl, trivial⟩

theorem newArray {element : TargetType} {elements : Array Value}
    (h : ∀ v ∈ elements, v.Within (.lent first)) :
    Access.Lends first (Access.newArray element elements) fun id => first ≤ id := by
  intro s hs
  refine ⟨fun id t ht => ?_, fun f t h => ?_⟩
  · cases ht
    refine ⟨hs.addObject fun _ _ _ heq => ?_, hs.size⟩
    cases heq
    exact h
  · cases h

theorem newBlock (bytes : List UInt8) : Access.Lends first (Access.newBlock bytes) fun _ => True := by
  intro s hs
  refine ⟨fun id t ht => ?_, fun f t h => ?_⟩
  · cases ht
    exact ⟨hs.of_objects rfl, trivial⟩
  · cases h

theorem mapM {f : α → Access β} (h : ∀ a, Access.Lends first (f a) Q) :
    ∀ xs : List α, Access.Lends first (xs.mapM f) fun ys => ∀ y ∈ ys, Q y
  | [] => .pure (by simp)
  | x :: xs => by
    rw [List.mapM_cons]
    refine (h x).bind fun y hy => (mapM h xs).bind fun ys hys => .pure ?_
    exact List.forall_mem_cons.2 ⟨hy, hys⟩

theorem forM {f : α → Access Unit} (h : ∀ a, Access.Lends first (f a) fun _ => True) :
    ∀ xs : List α, Access.Lends first (xs.forM f) fun _ => True
  | [] => .pure trivial
  | x :: xs => (h x).bind fun _ _ => forM h xs

end Access.Lends

/-! ## Services -/

namespace Access

/-- Native copies are in native memory. -/
theorem lends_nativeCopy (text : String) :
    Lends first (nativeCopy text) (·.Within (.lent first)) :=
  (Lends.newBlock _).bind fun _ _ => (Lends.count _).bind fun _ _ => .pure trivial

theorem lends_argsToArgv (args : Value) :
    Lends first (argsToArgv args) (·.Within (.made first)) := by
  have htexts : ∀ values, Lends first (texts values) fun _ => True := fun values =>
    (Lends.mapM (Q := fun _ => True) (fun v =>
      (Lends.ofExcept fun _ _ => trivial).bind fun _ (_ : True) => .read fun _ _ _ _ => trivial)
      values).weaken fun _ _ => trivial
  unfold argsToArgv
  refine (Lends.ofExcept (P := fun _ => True) fun _ _ => trivial).bind fun id _ => ?_
  refine (Lends.read (P := fun _ => True) fun _ _ _ _ => trivial).bind fun a _ => ?_
  dsimp only
  split
  · exact .throw_bind _
  refine (htexts _).bind fun texts _ => (Lends.mapM lends_nativeCopy texts).bind fun copies hcopies => ?_
  refine (Lends.count _).bind fun _ _ => (Lends.newArray fun v hv => ?_).bind fun id hid => .pure hid
  rcases List.mem_append.1 (List.mem_toArray.1 hv) with hv | hv
  · exact hcopies v hv
  · obtain rfl := List.mem_singleton.1 hv
    trivial

theorem lends_freeArgv (argv : Value) : Lends first (freeArgv argv) fun _ => True := by
  have hfree : ∀ v, Lends first (freeTarget v) fun _ => True := by
    intro v
    unfold freeTarget
    split
    · refine (Lends.update fun s heap hs hheap => ?_).bind fun _ _ => .count _
      obtain ⟨bytes, -, rfl⟩ := Heap.free_eq_ok.1 hheap
      exact hs.of_objects rfl
    · exact .pure trivial
  unfold freeArgv
  refine (Lends.ofExcept (P := fun _ => True) fun _ _ => trivial).bind fun id _ => ?_
  refine (Lends.read (P := fun _ => True) fun _ _ _ _ => trivial).bind fun a _ => ?_
  exact (Lends.count _).bind fun _ _ => .forM hfree _

/-- What is copied into an array that is lent comes from one that was made for that. -/
theorem lends_arrayCopy {source : Value} (hsource : source.Within (.made first))
    (destination : Value) (length : Int64) :
    Lends first (arrayCopy source destination length) fun _ => True := by
  have hread : ∀ id : Nat, Lends first (Access.read (·.array id)) fun (a : TargetType × Array Value) =>
      first ≤ id → ∀ v ∈ a.2, v.Within (.lent first) :=
    fun id => .read fun s hs a ha hid => hs.elements hid ha
  unfold arrayCopy
  refine (Lends.ofExcept fun id hid => hsource.asObject hid).bind fun from' hfrom => ?_
  refine (Lends.ofExcept (P := fun _ => True) fun _ _ => trivial).bind fun target _ => ?_
  split
  · exact .throw_bind _
  refine (hread from').bind fun ⟨element, items⟩ hitems => ?_
  dsimp only
  split
  · exact .throw_bind _
  refine (hread target).bind fun ⟨element', targets⟩ htargets => ?_
  dsimp only
  split
  · exact .throw_bind _
  split
  · exact .throw_bind _
  refine .update fun s heap hs hheap => ?_
  obtain ⟨element'', old, pins, -, rfl⟩ := Heap.setElements_eq_ok.1 hheap
  refine hs.setArray fun htarget v hv => ?_
  rcases Array.mem_append.1 hv with hv | hv
  · obtain ⟨k, hk, rfl⟩ := Array.mem_extract_iff_getElem.1 hv
    exact hitems hfrom _ (Array.getElem_mem _)
  · obtain ⟨k, hk, rfl⟩ := Array.mem_extract_iff_getElem.1 hv
    exact htargets htarget _ (Array.getElem_mem _)

/-- A service keeps what is lent if it only copies from an array that was made for that, and what it
answers was made, too. -/
theorem lends_callHelper {helper : Helper} {arguments : List Value}
    (hcopy : ∀ source rest, helper = .arrayCopy → arguments = source :: rest →
      source.Within (.made first)) :
    Lends first (callHelper helper arguments) fun result => ∀ v ∈ result, v.Within (.made first) := by
  unfold callHelper
  split
  · rw [map_eq_pure_bind]
    refine (lends_argsToArgv _).bind fun w hw => .pure fun v hv => ?_
    cases hv
    exact hw
  · exact (lends_freeArgv _).bind fun _ _ => .pure nofun
  · refine (Lends.ofExcept (P := fun _ => True) fun _ _ => trivial).bind fun n _ => ?_
    exact (lends_arrayCopy (hcopy _ _ rfl rfl) _ _).bind fun _ _ => .pure nofun
  · exact .throw _

end Access

/-! ## Instructions -/

namespace Activation

open Access (Lends)

variable {a b : Activation} {s t : Store} {i : Instruction}

theorem lends_storeLocal (a : Activation) (slot : UInt16) (v : Value) :
    Lends first (a.storeLocal slot v) fun _ => True := by
  cases hdeclared : a.method.locals[slot.toNat]? with
  | none =>
    unfold storeLocal
    rw [hdeclared]
    exact .throw _
  | some declared =>
    rw [storeLocal_eq hdeclared]
    refine Lends.bind (P := fun _ => True) ?_ fun _ _ => .pure trivial
    unfold repin unpinOld pinNew
    split
    · refine Lends.bind (P := fun _ => True) ?_ fun _ _ => ?_
      all_goals
        split
        · exact (Lends.update fun s heap hs hheap => hs.changePins hheap).bind fun _ _ =>
            (Lends.count _).bind fun _ _ => .log _
        · exact .pure trivial
    · exact .pure trivial

theorem lends_makeArray (element : TargetType) (length : Value) :
    Lends first (makeArray element length) (·.Within (.made first)) := by
  unfold makeArray
  refine (Lends.ofExcept (P := fun _ => True) fun _ _ => trivial).bind fun n _ => ?_
  split
  · exact .throw_bind _
  refine (Lends.newArray fun v hv => ?_).bind fun id hid => .pure hid
  obtain ⟨-, rfl⟩ := Array.mem_replicate.1 hv
  exact Value.within_zeroOf _

/-- Pins that are let go of when a call ends do not matter. -/
theorem lends_releasePins (a : Activation) (hs : s.Lends first) : (a.releasePins s).Lends first := by
  unfold releasePins
  generalize a.method.locals.toList.zip a.locals.toList = slots
  induction slots generalizing s with
  | nil => exact hs
  | cons p slots ih =>
    rw [List.foldl_cons]
    refine ih ?_
    dsimp only
    split
    · split
      · rename_i hheap
        exact (hs.changePins hheap).congr rfl
      · exact hs
    · exact hs

theorem lends_close (a : Activation) (hs : s.Lends first) : (a.close s).Lends first :=
  a.lends_releasePins ⟨hs.within, hs.size⟩

/-- The operands of an instruction do not put anything else into arrays that are lent. -/
structure Spares (first : Nat) (a : Activation) (i : Instruction) : Prop where
  /-- Elements are copied from an array that was made for that. -/
  copy : ∀ source destination length rest, i = .callHelper .arrayCopy →
    a.stack = length :: destination :: source :: rest → source.Within (.made first)
  /-- What is stored through a pointer is no object. -/
  store : ∀ type v u rest, i = .store type → a.stack = v :: u :: rest → v.Within (.lent first)

/-- An instruction that spares what is lent keeps it, also when it faults. -/
theorem lends_execute (h : a.Spares first i) : Lends first (a.execute i) fun _ => True := by
  have hexcept : ∀ {α : Type} (x : Except Fault α), Lends first (Access.ofExcept x) fun _ => True :=
    fun _ => .ofExcept fun _ _ => trivial
  have hread : ∀ {α : Type} (f : Heap → Except Fault α), Lends first (Access.read f) fun _ => True :=
    fun _ => .read fun _ _ _ _ => trivial
  cases i with
  | nop | constInt32 | constInt64 | loadNull | call | ret | leave | endFinally => exact .pure trivial
  | neg | not | convInt32 | convInt64 | convNative | convAddress | binary | compare | branch | dup | pop =>
    exact (hexcept _).bind fun _ _ => .pure trivial
  | loadArgument | loadLocal =>
    simp only [execute]
    split
    · exact .pure trivial
    · exact .throw _
  | storeArgument =>
    refine (hexcept _).bind fun _ _ => ?_
    dsimp only
    split
    · exact .pure trivial
    · exact .throw _
  | storeLocal => exact (hexcept _).bind fun p _ => (lends_storeLocal _ _ _).bind fun _ _ => .pure trivial
  | branchIf =>
    refine (hexcept _).bind fun p _ => ?_
    dsimp only
    split
    · exact (hexcept _).bind fun _ _ => .pure trivial
    · exact .pure trivial
  | callHelper helper =>
    simp only [execute]
    split
    · exact .throw _
    · rename_i arguments rest hpop
      obtain ⟨hlength, rfl, rfl⟩ := popMany?_eq_some.1 hpop
      refine (Access.lends_callHelper fun source rest' heq hsource => ?_).bind fun result _ => ?_
      · subst heq
        obtain ⟨n, v, u, below, hstack⟩ : ∃ n v u below, a.stack = n :: v :: u :: below := by
          have hlength : 3 ≤ a.stack.length := hlength
          rcases hstack : a.stack with _ | ⟨n, _ | ⟨v, _ | ⟨u, below⟩⟩⟩
          · simp [hstack] at hlength
          · simp [hstack] at hlength
          · simp [hstack] at hlength
          · exact ⟨n, v, u, below, rfl⟩
        rw [hstack] at hsource
        cases hsource
        exact h.copy source v n below rfl hstack
      split
      · exact (Lends.log _).bind fun _ _ => .pure trivial
      · exact .pure trivial
  | newArray => exact (hexcept _).bind fun p _ => (lends_makeArray _ _).bind fun _ _ => .pure trivial
  | arrayLength =>
    exact (hexcept _).bind fun p _ => (hexcept _).bind fun _ _ => (hread _).bind fun _ _ => .pure trivial
  | elementAddress =>
    exact (hexcept _).bind fun p _ => (hexcept _).bind fun _ _ => (hexcept _).bind fun q _ =>
      (hexcept _).bind fun _ _ => (hread _).bind fun _ _ => .pure trivial
  | load => exact Lends.get.bind fun s _ => (hexcept _).bind fun _ _ => .pure trivial
  | store type =>
    refine (Lends.ofExcept fun p hp => pop_eq_ok.1 hp).bind fun p hp => ?_
    obtain ⟨v, b⟩ := p
    obtain ⟨below, hstack, hb⟩ := hp
    refine (Lends.ofExcept fun p hp => pop_eq_ok.1 hp).bind fun q hq => ?_
    obtain ⟨u, c⟩ := q
    obtain ⟨rest, hrest, -⟩ := hq
    refine (hexcept _).bind fun p _ => (Lends.update fun s heap hs hheap => ?_).bind fun _ _ =>
      .pure trivial
    dsimp only at hstack hb hrest
    obtain rfl : below = u :: rest := by rw [← hrest, hb]
    exact hs.storeThrough (h.store type v u rest rfl hstack) hheap

theorem Executes.lends (h : a.Executes s i b t) (hspares : a.Spares first i) (hs : s.Lends first) :
    t.Lends first :=
  ((lends_execute hspares s hs).1 b t (yields_of_executes h)).1

theorem lends_of_fails {f : Fault} (h : Fails (a.execute i) s f t) (hspares : a.Spares first i)
    (hs : s.Lends first) : t.Lends first :=
  (lends_execute hspares s hs).2 f t h

end Activation

end ManagedC
