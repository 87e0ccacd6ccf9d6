import ManagedC.Proofs.Run.Faults

/-!
# What leaves pins alone

Only stores to pinned variables and the ends of calls change how often an array is pinned.
`Store.KeepsPins` is what all else does to the store: arrays keep their pins, new ones have none, and
no array comes to hold a pointer into an array that does not exist. Main statement: the services of
the machine leave pins alone, whether they fault or not (`Access.keepsPins_callHelper`).
-/

namespace ManagedC

open Activation (pinTarget?)

namespace Heap

/-- If the value points into an array, the array exists. -/
def Knows (h : Heap) (v : Value) : Prop := ∀ id, pinTarget? v = some id → (h.pins? id).isSome = true

/-- Pointers that arrays hold point into arrays that exist. -/
def Closed (h : Heap) : Prop :=
  ∀ (id : Nat) element elements pins, h.objects[id]? = some (.array element elements pins) →
    ∀ v ∈ elements, h.Knows v

variable {h h' : Heap} {v w : Value} {id : Nat}

theorem pins?_eq_some {n : Nat} : h.pins? id = some n ↔
    ∃ element elements, h.objects[id]? = some (.array element elements n) := by
  unfold pins?
  constructor
  · intro hn
    split at hn
    · rename_i element elements pins ho
      cases hn
      exact ⟨element, elements, ho⟩
    · cases hn
  · rintro ⟨element, elements, ho⟩
    rw [ho]

/-- Other elements and other pins of an array change the pins of no other array. -/
theorem pins?_setIfInBounds {element : TargetType} {elements : Array Value} {n : Nat}
    (hlt : id < h.objects.size) (k : Nat) :
    ({ h with objects := h.objects.setIfInBounds id (.array element elements n) } : Heap).pins? k =
      if k = id then some n else h.pins? k := by
  unfold pins?
  dsimp only
  by_cases hk : k = id
  · rw [hk, if_pos rfl, Array.getElem?_setIfInBounds_self_of_lt hlt]
  · rw [if_neg hk, Array.getElem?_setIfInBounds_ne (Ne.symm hk)]

theorem knows_of_none (hv : pinTarget? v = none) : h.Knows v := by
  intro id hid
  rw [hv] at hid
  cases hid

theorem knows_of_eq (hw : h.Knows w) (hv : pinTarget? v = pinTarget? w) : h.Knows v := by
  intro id hid
  exact hw id (hv ▸ hid)

end Heap

theorem Value.pinTarget?_narrow (type : TargetType) (v : Value) :
    pinTarget? (v.narrow type) = pinTarget? v := by
  cases v <;> rfl

theorem Value.pinTarget?_zeroOf (type : TargetType) : pinTarget? (zeroOf type) = none := by
  unfold zeroOf
  split
  · rfl
  · split <;> rfl

/-- Between the two stores no array was pinned or unpinned. -/
structure Store.KeepsPins (s t : Store) : Prop where
  kept : ∀ id n, s.heap.pins? id = some n → t.heap.pins? id = some n
  fresh : ∀ id n, t.heap.pins? id = some n → s.heap.pins? id = some n ∨ s.heap.pins? id = none ∧ n = 0
  /-- Arrays hold no pointer into an array that does not exist. -/
  closed : s.heap.Closed → t.heap.Closed
  pins : t.stats.pins = s.stats.pins
  /-- The pins counted that the program undid. -/
  unpins : t.stats.unpins = s.stats.unpins
  /-- The pins counted that the ends of calls undid. -/
  frameExitUnpins : t.stats.frameExitUnpins = s.stats.frameExitUnpins

namespace Store.KeepsPins

variable {s t u : Store}

theorem refl (s : Store) : KeepsPins s s := ⟨fun _ _ h => h, fun _ _ h => .inl h, id, rfl, rfl, rfl⟩

theorem trans (h : KeepsPins s t) (h' : KeepsPins t u) : KeepsPins s u := by
  refine ⟨fun id n hn => h'.kept id n (h.kept id n hn), ?_, fun hc => h'.closed (h.closed hc),
    h'.pins.trans h.pins, h'.unpins.trans h.unpins, h'.frameExitUnpins.trans h.frameExitUnpins⟩
  intro id n hn
  rcases h'.fresh id n hn with hn | ⟨hnone, rfl⟩
  · exact h.fresh id n hn
  · refine .inr ⟨?_, rfl⟩
    cases hs : s.heap.pins? id with
    | none => rfl
    | some k =>
      rw [h.kept id k hs] at hnone
      cases hnone

theorem knows (h : KeepsPins s t) {v : Value} (hv : s.heap.Knows v) : t.heap.Knows v := by
  intro id hid
  obtain ⟨n, hn⟩ := Option.isSome_iff_exists.1 (hv id hid)
  rw [h.kept id n hn]
  rfl

/-- Where the objects and the counts of pins are the same, nothing was pinned. -/
theorem of_objects (ho : t.heap.objects = s.heap.objects) (hp : t.stats.pins = s.stats.pins)
    (hu : t.stats.unpins = s.stats.unpins)
    (hf : t.stats.frameExitUnpins = s.stats.frameExitUnpins) : KeepsPins s t := by
  have hpins : ∀ id, t.heap.pins? id = s.heap.pins? id := by
    intro id
    unfold Heap.pins?
    rw [ho]
  refine ⟨fun id n hn => (hpins id).trans hn, fun id n hn => .inl ((hpins id).symm.trans hn), ?_, hp,
    hu, hf⟩
  intro hc id element elements pins hget v hv k hk
  rw [hpins k]
  rw [ho] at hget
  exact hc id element elements pins hget v hv k hk

/-- A new object may be added if nothing pins it and it holds no pointer to nowhere. -/
theorem addObject {o : HeapObject} (ho : ∀ element elements pins, o = .array element elements pins →
      pins = 0 ∧ ∀ v ∈ elements, pinTarget? v = none) :
    KeepsPins s { s with heap := s.heap.addObject o } := by
  have hold : ∀ id : Nat, id < s.heap.objects.size →
      (s.heap.addObject o).objects[id]? = s.heap.objects[id]? := by
    intro id hlt
    show (s.heap.objects.push o)[id]? = _
    rw [Array.getElem?_push_lt hlt, Array.getElem?_eq_getElem hlt]
  have hkept : ∀ id n, s.heap.pins? id = some n → (s.heap.addObject o).pins? id = some n := by
    intro id n hn
    obtain ⟨element, elements, hget⟩ := Heap.pins?_eq_some.1 hn
    have hlt := (Array.getElem?_eq_some_iff.1 hget).1
    exact Heap.pins?_eq_some.2 ⟨element, elements, (hold id hlt).trans hget⟩
  -- An object of the larger heap is an old one or the new one.
  have hcases : ∀ {id : Nat} {element elements pins},
      (s.heap.addObject o).objects[id]? = some (.array element elements pins) →
      s.heap.objects[id]? = some (.array element elements pins) ∨
        s.heap.objects[id]? = none ∧ o = .array element elements pins := by
    intro id element elements pins hget
    have hget : (s.heap.objects.push o)[id]? = some (.array element elements pins) := hget
    rw [Array.getElem?_push] at hget
    split at hget
    · rename_i hid
      refine .inr ⟨?_, Option.some.inj hget⟩
      rw [hid]
      exact Array.getElem?_eq_none (Nat.le_refl _)
    · exact .inl hget
  refine ⟨hkept, ?_, ?_, rfl, rfl, rfl⟩
  · intro id n hn
    obtain ⟨element, elements, hget⟩ := Heap.pins?_eq_some.1 hn
    rcases hcases hget with hget | ⟨hnone, hnew⟩
    · exact .inl (Heap.pins?_eq_some.2 ⟨element, elements, hget⟩)
    · refine .inr ⟨?_, (ho element elements n hnew).1⟩
      unfold Heap.pins?
      rw [hnone]
  · intro hc id element elements pins hget v hv
    rcases hcases hget with hget | ⟨-, hnew⟩
    · intro k hk
      obtain ⟨n, hn⟩ := Option.isSome_iff_exists.1 (hc id element elements pins hget v hv k hk)
      show ((s.heap.addObject o).pins? k).isSome = true
      rw [hkept k n hn]
      rfl
    · exact Heap.knows_of_none ((ho element elements pins hnew).2 v hv)

/-- The elements of an array may change as long as they point to what exists. -/
theorem setArray {id : Nat} {element : TargetType} {old elements : Array Value} {pins : Nat}
    (ho : s.heap.objects[id]? = some (.array element old pins))
    (helements : s.heap.Closed → ∀ v ∈ elements, s.heap.Knows v) :
    KeepsPins s { s with heap := { s.heap with
      objects := s.heap.objects.setIfInBounds id (.array element elements pins) } } := by
  have hlt := (Array.getElem?_eq_some_iff.1 ho).1
  have hself : (s.heap.objects.setIfInBounds id (.array element elements pins))[id]? =
      some (.array element elements pins) := Array.getElem?_setIfInBounds_self_of_lt hlt
  have hpins : ∀ k, ({ s.heap with
      objects := s.heap.objects.setIfInBounds id (.array element elements pins) } : Heap).pins? k =
      s.heap.pins? k := by
    intro k
    rw [Heap.pins?_setIfInBounds hlt]
    split
    · rename_i hk
      rw [hk, Heap.pins?_eq_some.2 ⟨element, old, ho⟩]
    · rfl
  refine ⟨fun k n hn => (hpins k).trans hn, fun k n hn => .inl ((hpins k).symm.trans hn), ?_, rfl,
    rfl, rfl⟩
  intro hc k element' elements' pins' hget v hv j hj
  show (Heap.pins? _ j).isSome = true
  rw [hpins j]
  by_cases hk : id = k
  · subst hk
    have hget := hself.symm.trans hget
    cases hget
    exact helements hc v hv j hj
  · have hget : (s.heap.objects.setIfInBounds id (.array element elements pins))[k]? = _ := hget
    rw [Array.getElem?_setIfInBounds_ne hk] at hget
    exact hc k element' elements' pins' hget v hv j hj

end Store.KeepsPins

/-! ## Computations -/

/-- The computation leaves pins alone, whether it faults or not. -/
def Access.KeepsPins {α : Type} (x : Access α) (s : Store) : Prop := s.KeepsPins (x s).2

namespace Access.KeepsPins

variable {α β : Type} {s : Store}

theorem yields {x : Access α} {a : α} {t : Store} (h : KeepsPins x s) (hx : Yields x s a t) :
    s.KeepsPins t := by
  unfold KeepsPins at h
  rw [show x s = (.ok a, t) from hx] at h
  exact h

theorem fails {x : Access α} {f : Fault} {t : Store} (h : KeepsPins x s) (hx : Fails x s f t) :
    s.KeepsPins t := by
  unfold KeepsPins at h
  rw [show x s = (.error f, t) from hx] at h
  exact h

theorem bind {x : Access α} {g : α → Access β} (hx : KeepsPins x s)
    (hg : ∀ a t, Yields x s a t → KeepsPins (g a) t) : KeepsPins (x >>= g) s := by
  unfold KeepsPins at hx ⊢
  rw [bind_apply]
  rcases hr : x s with ⟨f | a, t⟩
  · rw [hr] at hx
    exact hx
  · rw [hr] at hx
    exact hx.trans (hg a t hr)

theorem pure (a : α) : KeepsPins (Pure.pure a) s := .refl s

theorem throw (f : Fault) : KeepsPins (MonadExcept.throw f : Access α) s := .refl s

theorem ofExcept (x : Except Fault α) : KeepsPins (Access.ofExcept x) s := .refl s

theorem modify {g : Store → Store} (h : s.KeepsPins (g s)) :
    KeepsPins (modify g : Access Unit) s := h

theorem read (g : Heap → Except Fault α) : KeepsPins (Access.read g) s := by
  unfold Access.read
  refine bind (.refl s) fun a t hget => ?_
  exact ofExcept _

theorem update {g : Heap → Except Fault Heap}
    (h : ∀ heap, g s.heap = .ok heap → s.KeepsPins { s with heap := heap }) :
    KeepsPins (Access.update g) s := by
  unfold Access.update
  refine bind (read g) fun heap t hread => ?_
  obtain ⟨hheap, rfl⟩ := Access.yields_read.1 hread
  exact modify (h heap hheap)

theorem mapM {f : β → Access α} (h : ∀ x s, KeepsPins (f x) s) : ∀ (xs : List β) (s : Store),
    KeepsPins (xs.mapM f) s
  | [], _ => pure _
  | x :: xs, s => by
    rw [List.mapM_cons]
    exact bind (h x s) fun a t _ => bind (mapM h xs t) fun _ _ _ => pure _

theorem forM {f : β → Access Unit} (h : ∀ x s, KeepsPins (f x) s) : ∀ (xs : List β) (s : Store),
    KeepsPins (xs.forM f) s
  | [], _ => pure _
  | x :: xs, s => bind (h x s) fun _ t _ => forM h xs t

theorem newObject {o : HeapObject} (ho : ∀ element elements pins, o = .array element elements pins →
      pins = 0 ∧ ∀ v ∈ elements, pinTarget? v = none) : KeepsPins (Access.newObject o) s := by
  unfold Access.newObject
  refine bind (.refl s) fun t u hget => ?_
  obtain ⟨rfl, rfl⟩ := Yields.get_iff.1 hget
  exact bind (modify (.addObject ho)) fun _ _ _ => pure _

theorem newBlock (bytes : List UInt8) : KeepsPins (Access.newBlock bytes) s := by
  unfold Access.newBlock
  refine bind (.refl s) fun t u hget => ?_
  obtain ⟨rfl, rfl⟩ := Yields.get_iff.1 hget
  exact bind (modify (.of_objects rfl rfl rfl rfl)) fun _ _ _ => pure _

end Access.KeepsPins

/-! ## Services -/

namespace Access

variable {s t : Store}

theorem keepsPins_nativeCopy (text : String) (s : Store) : KeepsPins (nativeCopy text) s := by
  unfold nativeCopy
  refine .bind (.newBlock _) fun id t _ => ?_
  exact .bind (.modify (.of_objects rfl rfl rfl rfl)) fun _ _ _ => .pure _

/-- Native copies point into native memory. -/
theorem pinTarget?_nativeCopies : ∀ {texts : List String} {s t : Store} {copies : List Value},
    Yields (texts.mapM nativeCopy) s copies t → ∀ v ∈ copies, pinTarget? v = none
  | [], _, t, copies, h, v, hv => by
    obtain ⟨rfl, -⟩ := Yields.pure_iff.1 h
    cases hv
  | text :: texts, s, t, copies, h, v, hv => by
    rw [List.mapM_cons] at h
    obtain ⟨copy, u, hcopy, h⟩ := Yields.bind_iff.1 h
    obtain ⟨rest, w, hrest, h⟩ := Yields.bind_iff.1 h
    obtain ⟨rfl, -⟩ := Yields.pure_iff.1 h
    rcases List.mem_cons.1 hv with rfl | hv
    · unfold nativeCopy at hcopy
      obtain ⟨id, _, -, hcopy⟩ := Yields.bind_iff.1 hcopy
      obtain ⟨_, _, -, hcopy⟩ := Yields.bind_iff.1 hcopy
      obtain ⟨rfl, -⟩ := Yields.pure_iff.1 hcopy
      rfl
    · exact pinTarget?_nativeCopies hrest v hv

theorem keepsPins_argsToArgv (args : Value) (s : Store) : KeepsPins (argsToArgv args) s := by
  unfold argsToArgv
  refine .bind (.ofExcept _) fun id t _ => .bind (.read _) fun ⟨element, strings⟩ u _ => ?_
  dsimp only
  split
  · exact .bind (.throw _) fun _ _ h => absurd h Yields.not_throw
  refine .bind (.mapM (fun v s => ?_) _ _) fun texts w _ => ?_
  · exact .bind (.ofExcept _) fun _ _ _ => .read _
  refine .bind (.mapM keepsPins_nativeCopy _ _) fun copies x hcopies => ?_
  refine .bind (.modify (.of_objects rfl rfl rfl rfl)) fun _ y _ => ?_
  refine .bind (.newObject fun element elements pins heq => ?_) fun _ _ _ => .pure _
  cases heq
  refine ⟨rfl, fun v hv => ?_⟩
  rcases List.mem_append.1 (List.mem_toArray.1 hv) with hv | hv
  · exact pinTarget?_nativeCopies hcopies v hv
  · obtain rfl := List.mem_singleton.1 hv
    rfl

/-- What the copies are kept in is a managed object. -/
theorem exists_object_of_argsToArgv {args argv : Value} (h : Yields (argsToArgv args) s argv t) :
    ∃ id, argv = .object id := by
  unfold argsToArgv at h
  obtain ⟨id, _, -, h⟩ := Yields.bind_iff.1 h
  obtain ⟨⟨element, strings⟩, _, -, h⟩ := Yields.bind_iff.1 h
  dsimp only at h
  split at h
  · obtain ⟨_, _, h, -⟩ := Yields.bind_iff.1 h
    exact absurd h Yields.not_throw
  obtain ⟨_, _, -, h⟩ := Yields.bind_iff.1 h
  obtain ⟨_, _, -, h⟩ := Yields.bind_iff.1 h
  obtain ⟨_, _, -, h⟩ := Yields.bind_iff.1 h
  obtain ⟨id, _, -, h⟩ := Yields.bind_iff.1 h
  exact ⟨id, (Yields.pure_iff.1 h).1⟩

theorem keepsPins_freeTarget (v : Value) (s : Store) : KeepsPins (freeTarget v) s := by
  unfold freeTarget
  split
  · refine .bind (.update fun heap hfree => ?_) fun _ t _ => .modify (.of_objects rfl rfl rfl rfl)
    obtain ⟨bytes, -, rfl⟩ := Heap.free_eq_ok.1 hfree
    exact .of_objects rfl rfl rfl rfl
  · exact .pure _

theorem keepsPins_freeArgv (argv : Value) (s : Store) : KeepsPins (freeArgv argv) s := by
  unfold freeArgv
  refine .bind (.ofExcept _) fun id t _ => .bind (.read _) fun a u _ => ?_
  refine .bind (.modify (.of_objects rfl rfl rfl rfl)) fun _ w _ => ?_
  exact .forM keepsPins_freeTarget _ _

theorem keepsPins_arrayCopy (source destination : Value) (length : Int64) (s : Store) :
    KeepsPins (arrayCopy source destination length) s := by
  unfold arrayCopy
  refine .bind (.ofExcept _) fun from' t hfrom => ?_
  obtain ⟨-, rfl⟩ := Access.yields_ofExcept.1 hfrom
  refine .bind (.ofExcept _) fun target t htarget => ?_
  obtain ⟨-, rfl⟩ := Access.yields_ofExcept.1 htarget
  split
  · exact .bind (.throw _) fun _ _ h => absurd h Yields.not_throw
  refine .bind (.read _) fun ⟨element, items⟩ t hitems => ?_
  obtain ⟨hitems, rfl⟩ := Access.yields_read.1 hitems
  dsimp only
  split
  · exact .bind (.throw _) fun _ _ h => absurd h Yields.not_throw
  refine .bind (.read _) fun ⟨element', targets⟩ t htargets => ?_
  obtain ⟨htargets, rfl⟩ := Access.yields_read.1 htargets
  dsimp only
  split
  · exact .bind (.throw _) fun _ _ h => absurd h Yields.not_throw
  split
  · exact .bind (.throw _) fun _ _ h => absurd h Yields.not_throw
  refine .update fun heap hset => ?_
  obtain ⟨element'', old, pins, ho, rfl⟩ := Heap.setElements_eq_ok.1 hset
  refine .setArray ho fun hc v hv => ?_
  obtain ⟨pins, hitems⟩ := Heap.array_eq_ok.1 hitems
  obtain ⟨pins', htargets⟩ := Heap.array_eq_ok.1 htargets
  rcases Array.mem_append.1 hv with hv | hv
  · obtain ⟨k, hk, rfl⟩ := Array.mem_extract_iff_getElem.1 hv
    exact hc _ _ _ pins hitems _ (Array.getElem_mem _)
  · obtain ⟨k, hk, rfl⟩ := Array.mem_extract_iff_getElem.1 hv
    exact hc _ _ _ pins' htargets _ (Array.getElem_mem _)

/-- No service pins or unpins anything. -/
theorem keepsPins_callHelper (helper : Helper) (arguments : List Value) (s : Store) :
    KeepsPins (callHelper helper arguments) s := by
  unfold callHelper
  split
  · rename_i args
    rw [map_eq_pure_bind]
    exact .bind (keepsPins_argsToArgv _ _) fun _ _ _ => .pure _
  · exact .bind (keepsPins_freeArgv _ _) fun _ _ _ => .pure _
  · refine .bind (.ofExcept _) fun n t _ => ?_
    exact .bind (keepsPins_arrayCopy _ _ _ _) fun _ _ _ => .pure _
  · exact .throw _

/-- What a service answers points into no array. -/
theorem pinTarget?_callHelper {helper : Helper} {arguments : List Value} {result : Option Value}
    (h : Yields (callHelper helper arguments) s result t) :
    ∀ v ∈ result.toList, pinTarget? v = none := by
  unfold callHelper at h
  split at h
  · obtain ⟨argv, hargv, rfl⟩ := Yields.map_iff.1 h
    obtain ⟨id, rfl⟩ := exists_object_of_argsToArgv hargv
    intro v hv
    obtain rfl := List.mem_singleton.1 hv
    rfl
  · obtain ⟨_, _, -, h⟩ := Yields.bind_iff.1 h
    obtain ⟨rfl, -⟩ := Yields.pure_iff.1 h
    simp
  · obtain ⟨_, _, -, h⟩ := Yields.bind_iff.1 h
    obtain ⟨_, _, -, h⟩ := Yields.bind_iff.1 h
    obtain ⟨rfl, -⟩ := Yields.pure_iff.1 h
    simp
  · exact absurd h Yields.not_throw

end Access

end ManagedC
